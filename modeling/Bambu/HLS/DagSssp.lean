/-
  Bambu.HLS.DagSssp

  `DAG_SSSP`, the shortest distances from which the scheduling takes initiation intervals and
  chains of operations.

    * The calls of the depth-first search that have not returned are those on the way to a node
      (`Searched`, `DFS_topological_sort_finishes`).  In an acyclic graph the order that they leave
      behind, read backwards, has no edge that leads back.
    * A call of `exec` is one sweep in that order, whatever was called before
      (`Ready.exec`, `Ready.execs`).

  The sweep sees each pair of nodes with the weight that was added last.  A lighter edge that was
  added before is lost, although the list of its source still has it: `Representable` says when
  no distance changes by that.
-/

import Bambu.Math.Outcome
import Bambu.Math.ShortestPath
import Bambu.Utility.Common
import Mathlib.Data.List.Count

namespace Bambu
namespace DagSssp

open Bambu.Math

/-! ## The class

The weights are the rationals that the doubles stand for. -/

/-- `std::numeric_limits<double>::max()` -/
def max_value : ℚ := (2 ^ 53 - 1) * 2 ^ 971

/-- `l.at(i)` -/
def vectorAt {α : Type} (l : List α) (i : Nat) : Except Error α :=
  match l[i]? with
  | some a => .ok a
  | none => .error (.unreachable "vector::at")

/-- `l.at(i) = a` -/
def vectorPut {α : Type} (l : List α) (i : Nat) (a : α) : Except Error (List α) :=
  if i < l.length then .ok (l.set i a) else .error (.unreachable "vector::at")

/-- The fields that the depth-first search writes. -/
structure Visits where
  visited : List Bool
  ordered : List Nat

/-- `gal` has a target for every edge that was added, `edge_weight` a weight for every pair. -/
structure DAG_SSSP extends Visits where
  gal : List (List Nat)
  edge_weight : Nat × Nat → Option ℚ

/-- `if(!visited.at(v))` with the call under it -/
def Visits.unlessVisited (call : Nat → Visits → Except Error Visits) (v : Nat) (st : Visits) :
    Except Error Visits := do
  let seen ← vectorAt st.visited v
  if !seen then call v st else .ok st

/-- The first number bounds the depth of the recursion. -/
def DFS_topological_sort (gal : List (List Nat)) : Nat → Nat → Visits → Except Error Visits
  | 0, _, _ => .error .outOfFuel
  | fuel + 1, src, st => do
    let visited ← vectorPut st.visited src true
    let successors ← vectorAt gal src
    let st ← successors.foldlM
      (fun st v => st.unlessVisited (DFS_topological_sort gal fuel) v) { st with visited }
    .ok { st with ordered := st.ordered ++ [src] }

/-- The loop of `init` from `i` on.  `i` is an `unsigned int`, the number of nodes a `size_t`. -/
def initLoop (gal : List (List Nat)) (depth : Nat) : Nat → Nat → Visits → Except Error Visits
  | 0, _, _ => .error .outOfFuel
  | fuel + 1, i, st =>
    if i < gal.length then do
      let st ← st.unlessVisited (DFS_topological_sort gal depth) i
      initLoop gal depth fuel ((i + 1) % 2 ^ 32) st
    else .ok st

namespace DAG_SSSP

/-- `DAG_SSSP(nodes)` -/
def ofNodes (nodes : Nat) : DAG_SSSP where
  visited := List.replicate nodes false
  ordered := []
  gal := List.replicate nodes []
  edge_weight _ := none

def add_edge (src tgt : Nat) (weight : ℚ) (self : DAG_SSSP) : Except Error DAG_SSSP := do
  -- The weight of an edge between the same nodes is overwritten.
  let edge_weight := Function.update self.edge_weight (src, tgt) (some weight)
  let successors ← vectorAt self.gal src
  .ok { self with edge_weight, gal := self.gal.set src (successors ++ [tgt]) }

/-- `fuel` bounds the recursion and the rounds of the loop. -/
def init (fuel : Nat) (self : DAG_SSSP) : Except Error DAG_SSSP := do
  let visits ← initLoop self.gal fuel fuel 0 self.toVisits
  .ok { self with toVisits := visits }

/-- The body of the inner loop of `exec`. -/
def relax (self : DAG_SSSP) (u : Nat) (dist_curr : ℚ) (dist : List ℚ) (v : Nat) :
    Except Error (List ℚ) :=
  match self.edge_weight (u, v) with
  -- `end()->second` is undefined.
  | none => .error (.unreachable "map::end")
  | some weight => do
    let dist_v ← vectorAt dist v
    if dist_v > dist_curr + weight then vectorPut dist v (dist_curr + weight) else .ok dist

/-- The body of the outer loop of `exec`. -/
def visit (self : DAG_SSSP) (dist : List ℚ) (u : Nat) : Except Error (List ℚ) := do
  let dist_curr ← vectorAt dist u
  if dist_curr ≠ max_value then do
    let successors ← vectorAt self.gal u
    successors.foldlM (self.relax u dist_curr) dist
  else .ok dist

/-- What is in `dist` is cleared.  The result has the object and `dist` after the call. -/
def exec (source_node : Nat) (_dist : List ℚ) (self : DAG_SSSP) :
    Except Error (DAG_SSSP × List ℚ) := do
  let n_nodes := self.gal.length
  let dist := List.replicate n_nodes max_value
  -- `dist[source_node]` is not checked: past the end it is undefined.
  let dist ← vectorPut dist source_node 0
  let dist ← self.ordered.reverse.foldlM self.visit dist
  .ok (self, dist)

/-- Calls of `exec` one after the other, each with a source and with what is in its `dist`. -/
def execs : List (Nat × List ℚ) → DAG_SSSP → Except Error (DAG_SSSP × List (List ℚ))
  | [], self => .ok (self, [])
  | call :: calls, self => do
    let (self, dist) ← self.exec call.1 call.2
    let (self, dists) ← execs calls self
    .ok (self, dist :: dists)

/-- `add_edge` for every edge in turn. -/
def add_edges (edges : List (Nat × Nat × ℚ)) (self : DAG_SSSP) : Except Error DAG_SSSP :=
  edges.foldlM (fun self e => self.add_edge e.1 e.2.1 e.2.2) self

end DAG_SSSP

theorem vectorAt_eq {α : Type} {l : List α} {i : Nat} {a : α} (h : l[i]? = some a) :
    vectorAt l i = .ok a := by
  rw [vectorAt, h]

theorem vectorPut_eq {α : Type} {l : List α} {i : Nat} (h : i < l.length) (a : α) :
    vectorPut l i a = .ok (l.set i a) := if_pos h

/-! ## The added edges -/

/-- The weight of the edge that was added last from `u` to `v`. -/
def lastWeight (edges : List (Nat × Nat × ℚ)) (u v : Nat) : Option ℚ :=
  (edges.reverse.find? fun e => decide (e.1 = u ∧ e.2.1 = v)).map fun e => e.2.2

section Edges

variable {edges : List (Nat × Nat × ℚ)} {u v : Nat} {w : ℚ}

theorem lastWeight_append_singleton (e : Nat × Nat × ℚ) :
    lastWeight (edges ++ [e]) u v =
      if e.1 = u ∧ e.2.1 = v then some e.2.2 else lastWeight edges u v := by
  rw [lastWeight, List.reverse_append, List.reverse_singleton, List.singleton_append,
    List.find?_cons]
  by_cases he : e.1 = u ∧ e.2.1 = v
  · rw [if_pos he, decide_eq_true he]
    rfl
  · rw [if_neg he, decide_eq_false he]
    rfl

theorem mem_of_lastWeight (h : lastWeight edges u v = some w) : (u, v, w) ∈ edges := by
  rw [lastWeight, Option.map_eq_some_iff] at h
  obtain ⟨e, hfind, rfl⟩ := h
  have hends := List.find?_some hfind
  obtain ⟨rfl, rfl⟩ := of_decide_eq_true hends
  exact List.mem_reverse.mp (List.mem_of_find?_eq_some hfind)

theorem exists_lastWeight (h : (u, v, w) ∈ edges) : ∃ w', lastWeight edges u v = some w' := by
  have hsome : (edges.reverse.find? fun e => decide (e.1 = u ∧ e.2.1 = v)).isSome := by
    rw [List.find?_isSome]
    exact ⟨(u, v, w), List.mem_reverse.mpr h, by simp⟩
  obtain ⟨e, he⟩ := Option.isSome_iff_exists.mp hsome
  exact ⟨e.2.2, by rw [lastWeight, he]; rfl⟩

end Edges

/-- The lists of the object lead along the added edges, each with the weight added last. -/
structure Stores (n : Nat) (edges : List (Nat × Nat × ℚ)) (solver : DAG_SSSP) : Prop where
  nodes : solver.gal.length = n
  successors : ∀ u v, v ∈ solver.gal.getD u [] ↔ ∃ w, (u, v, w) ∈ edges
  weights : ∀ u v, solver.edge_weight (u, v) = lastWeight edges u v

section Build

variable {n : Nat} {edges : List (Nat × Nat × ℚ)} {solver : DAG_SSSP}

theorem stores_ofNodes (n : Nat) : Stores n [] (DAG_SSSP.ofNodes n) where
  nodes := List.length_replicate
  successors u v := by
    rw [DAG_SSSP.ofNodes, List.getD_eq_getElem?_getD, List.getElem?_replicate]
    split <;> simp
  weights _ _ := rfl

theorem getElem?_of_lt {gal : List (List Nat)} {u : Nat} (h : u < gal.length) :
    gal[u]? = some (gal.getD u []) := by
  rw [List.getD_eq_getElem?_getD, List.getElem?_eq_getElem h]
  rfl

theorem Stores.add_edge (h : Stores n edges solver) {e : Nat × Nat × ℚ} (he : e.1 < n) :
    ∃ solver', solver.add_edge e.1 e.2.1 e.2.2 = .ok solver' ∧ Stores n (edges ++ [e]) solver' ∧
      solver'.toVisits = solver.toVisits := by
  have hlt : e.1 < solver.gal.length := h.nodes.symm ▸ he
  refine ⟨{ solver with
    edge_weight := Function.update solver.edge_weight (e.1, e.2.1) (some e.2.2)
    gal := solver.gal.set e.1 (solver.gal.getD e.1 [] ++ [e.2.1]) }, ?_, ⟨?_, ?_, ?_⟩, rfl⟩
  · rw [DAG_SSSP.add_edge, vectorAt_eq (getElem?_of_lt hlt)]
    rfl
  · exact List.length_set.trans h.nodes
  · intro u v
    have hlast : (∃ w, (u, v, w) ∈ edges ++ [e]) ↔ (∃ w, (u, v, w) ∈ edges) ∨
      u = e.1 ∧ v = e.2.1 := by
      obtain ⟨x, y, z⟩ := e
      simp [exists_or]
    rw [hlast, ← h.successors, List.getD_eq_getElem?_getD, List.getElem?_set]
    by_cases hu : e.1 = u
    · subst hu
      simp [hlt]
    · simp [hu, Ne.symm hu]
  · intro u v
    rw [lastWeight_append_singleton, ← h.weights]
    by_cases hends : e.1 = u ∧ e.2.1 = v
    · rw [if_pos hends, ← hends.1, ← hends.2]
      exact Function.update_self ..
    · rw [if_neg hends]
      apply Function.update_of_ne
      intro heq
      exact hends ⟨(congrArg Prod.fst heq).symm, (congrArg Prod.snd heq).symm⟩

theorem add_edges_stores (hedges : ∀ e ∈ edges, e.1 < n) :
    ∃ solver, (DAG_SSSP.ofNodes n).add_edges edges = .ok solver ∧ Stores n edges solver ∧
      solver.toVisits = ⟨List.replicate n false, []⟩ := by
  refine foldlM_ok (I := fun done solver => Stores n done solver ∧
    solver.toVisits = ⟨List.replicate n false, []⟩) ?_ ⟨stores_ofNodes n, rfl⟩
  rintro done solver e he ⟨hstores, hvisits⟩
  obtain ⟨solver', hrun, hstores', heq⟩ := hstores.add_edge (hedges e he)
  exact ⟨solver', hrun, hstores', heq.trans hvisits⟩

end Build

/-! ## The order of the nodes -/

section Order

variable {gal : List (List Nat)} {active : List Nat} {st st' : Visits} {src v : Nat}

/-- A call for `u` looks at `v`. -/
def Leads (gal : List (List Nat)) (u v : Nat) : Prop := v ∈ gal.getD u []

/-- Between two writes of the search: `active` are the nodes whose calls have not returned. -/
structure Searched (gal : List (List Nat)) (active : List Nat) (st : Visits) : Prop where
  length : st.visited.length = gal.length
  visited : ∀ v, st.visited[v]? = some true ↔ v ∈ st.ordered ∨ v ∈ active
  disjoint : ∀ v ∈ active, v ∉ st.ordered
  closed : ∀ u ∈ st.ordered, ∀ v, Leads gal u v → v ∈ st.ordered
  forward : Forward (Leads gal) st.ordered.reverse

/-- What a part of the search leaves behind. -/
structure Extends (gal : List (List Nat)) (active : List Nat) (st st' : Visits) : Prop where
  searched : Searched gal active st'
  ordered : ∀ v ∈ st.ordered, v ∈ st'.ordered
  unvisited : st'.visited.count false ≤ st.visited.count false

theorem Extends.refl (h : Searched gal active st) : Extends gal active st st :=
  ⟨h, fun _ hv => hv, le_refl _⟩

theorem Extends.trans {st'' : Visits} (h : Extends gal active st st')
    (h' : Extends gal active st' st'') : Extends gal active st st'' :=
  ⟨h'.searched, fun v hv => h'.ordered v (h.ordered v hv), le_trans h'.unvisited h.unvisited⟩

theorem searched_nil (n : Nat) (gal : List (List Nat)) (hn : gal.length = n) :
    Searched gal [] ⟨List.replicate n false, []⟩ where
  length := List.length_replicate.trans hn.symm
  visited v := by simp [List.getElem?_replicate]
  disjoint _ hv := absurd hv List.not_mem_nil
  closed _ hu := absurd hu List.not_mem_nil
  forward := ⟨fun _ ha => absurd ha List.not_mem_nil, List.Pairwise.nil⟩

/-- `visited.at(src) = true` at the start of a call. -/
theorem Searched.enter (h : Searched gal active st) (hsrc : st.visited[src]? = some false) :
    Searched gal (src :: active) { st with visited := st.visited.set src true } where
  length := List.length_set.trans h.length
  visited v := by
    rw [List.getElem?_set]
    by_cases hv : src = v
    · subst hv
      have hlt := (List.getElem?_eq_some_iff.mp hsrc).1
      simp [hlt]
    · rw [if_neg hv, h.visited, List.mem_cons]
      simp [Ne.symm hv]
  disjoint v hv := by
    rcases List.mem_cons.mp hv with rfl | hv
    · intro hmem
      have hseen := (h.visited v).mpr (Or.inl hmem)
      rw [hsrc] at hseen
      cases hseen
    · exact h.disjoint v hv
  closed := h.closed
  forward := h.forward

/-- `ordered.push_back(src)` at the end of a call. -/
theorem Searched.leave (h : Searched gal (src :: active) st) (hactive : src ∉ active)
    (hself : ¬ Leads gal src src) (hsuccs : ∀ v, Leads gal src v → v ∈ st.ordered) :
    Searched gal active { st with ordered := st.ordered ++ [src] } where
  length := h.length
  visited v := by
    rw [h.visited, List.mem_cons, List.mem_append, List.mem_singleton, or_assoc]
  disjoint v hv := by
    rw [List.mem_append, List.mem_singleton]
    rintro (hmem | rfl)
    · exact h.disjoint v (List.mem_cons_of_mem _ hv) hmem
    · exact hactive hv
  closed u hu v hv := by
    apply List.mem_append_left
    rcases List.mem_append.mp hu with hu | hu
    · exact h.closed u hu v hv
    · rw [List.mem_singleton.mp hu] at hv
      exact hsuccs v hv
  forward := by
    rw [List.reverse_append, List.reverse_singleton, List.singleton_append]
    refine ⟨?_, List.pairwise_cons.mpr ⟨?_, h.forward.pairwise⟩⟩
    · intro a ha
      rcases List.mem_cons.mp ha with rfl | ha
      · exact hself
      · exact h.forward.irrefl a ha
    · -- A node that leads to `src` is not in the order before `src` is.
      intro b hb hlead
      have hmem := h.closed b (List.mem_reverse.mp hb) src hlead
      exact h.disjoint src List.mem_cons_self hmem

/-- A call returns with its node in the order. -/
def Finishes (gal : List (List Nat)) (active : List Nat) (v : Nat) (st : Visits)
    (r : Except Error Visits) : Prop :=
  ∃ st', r = .ok st' ∧ Extends gal active st st' ∧ v ∈ st'.ordered

theorem unlessVisited_finishes {call : Nat → Visits → Except Error Visits}
    (h : Searched gal active st) (hv : v < gal.length) (hactive : v ∉ active)
    (hcall : st.visited[v]? = some false → Finishes gal active v st (call v st)) :
    Finishes gal active v st (st.unlessVisited call v) := by
  have hlt : v < st.visited.length := h.length.symm ▸ hv
  have hat := List.getElem?_eq_getElem hlt
  rw [Visits.unlessVisited, vectorAt_eq hat]
  cases hseen : st.visited[v] with
  | false =>
    rw [hseen] at hat
    exact hcall hat
  | true =>
    rw [hseen] at hat
    exact ⟨st, rfl, Extends.refl h, ((h.visited v).mp hat).resolve_right hactive⟩

/-- The loop over the successors of a node. -/
theorem foldlM_unlessVisited (call : Nat → Visits → Except Error Visits) (succs : List Nat)
    {fuel : Nat} (h : Searched gal active st) (hfuel : st.visited.count false ≤ fuel)
    (hsuccs : ∀ v ∈ succs, v < gal.length ∧ v ∉ active)
    (hcall : ∀ v ∈ succs, ∀ st, Searched gal active st → st.visited.count false ≤ fuel →
      st.visited[v]? = some false → Finishes gal active v st (call v st)) :
    ∃ st', succs.foldlM (fun st v => st.unlessVisited call v) st = .ok st' ∧
      Extends gal active st st' ∧ ∀ v ∈ succs, v ∈ st'.ordered := by
  refine foldlM_ok (I := fun done st' => Extends gal active st st' ∧ ∀ v ∈ done, v ∈ st'.ordered) ?_
    ⟨Extends.refl h, fun v hv => absurd hv List.not_mem_nil⟩
  rintro done st₁ v hv ⟨hext, hdone⟩
  obtain ⟨st₂, hrun, hext', hmem⟩ :=
    unlessVisited_finishes hext.searched (hsuccs v hv).1 (hsuccs v hv).2
      (hcall v hv st₁ hext.searched (le_trans hext.unvisited hfuel))
  refine ⟨st₂, hrun, hext.trans hext', fun x hx => ?_⟩
  rcases List.mem_append.mp hx with hx | hx
  · exact hext'.ordered x (hdone x hx)
  · rwa [List.mem_singleton.mp hx]

variable (hrange : ∀ u v, Leads gal u v → v < gal.length)
  (hacyclic : ∀ v, ¬ Relation.TransGen (Leads gal) v v)

include hrange hacyclic

/-- A call for a node that is not visited returns, if those on the way to it are the active ones. -/
theorem DFS_topological_sort_finishes (fuel : Nat) {active : List Nat} {st : Visits} {src : Nat}
    (h : Searched gal active st) (hsrc : st.visited[src]? = some false)
    (hactive : ∀ a ∈ active, Relation.TransGen (Leads gal) a src)
    (hfuel : st.visited.count false ≤ fuel) :
    Finishes gal active src st (DFS_topological_sort gal fuel src st) := by
  induction fuel generalizing active st src with
  | zero =>
    have hmem : false ∈ st.visited := List.mem_of_getElem? hsrc
    have hpos := List.count_pos_iff.mpr hmem
    omega
  | succ fuel ih =>
    obtain ⟨hlt, hfalse⟩ := List.getElem?_eq_some_iff.mp hsrc
    have hcount : (st.visited.set src true).count false + 1 = st.visited.count false := by
      have hpos := List.count_pos_iff.mpr (List.mem_of_getElem? hsrc)
      rw [List.count_set hlt]
      simp [hfalse]
      omega
    have henter := h.enter hsrc
    have hfresh : src ∉ active := fun hmem => hacyclic src (hactive src hmem)
    -- Along an edge the active nodes stay those on the way; an edge to one closes a cycle.
    have hway : ∀ v, Leads gal src v → ∀ a ∈ src :: active, Relation.TransGen (Leads gal) a v := by
      intro v hv a ha
      rcases List.mem_cons.mp ha with rfl | ha
      · exact .single hv
      · exact (hactive a ha).tail hv
    have hless : (st.visited.set src true).count false ≤ fuel := by omega
    obtain ⟨st₁, hrun, hext, hdone⟩ :=
      foldlM_unlessVisited (DFS_topological_sort gal fuel) (gal.getD src []) henter hless
        (fun v hv => ⟨hrange src v hv, fun hmem => hacyclic v (hway v hv v hmem)⟩)
        (fun v hv st hst hle hfalse => ih hst hfalse (hway v hv) hle)
    have hleave := hext.searched.leave hfresh (fun hself => hacyclic src (.single hself)) hdone
    have hlast : src ∈ st₁.ordered ++ [src] := List.mem_append_right _ (List.mem_singleton_self _)
    refine ⟨_, ?_, ⟨hleave, fun v hv => ?_, ?_⟩, hlast⟩
    · have hgal : src < gal.length := h.length ▸ hlt
      rw [DFS_topological_sort, vectorPut_eq hlt, vectorAt_eq (getElem?_of_lt hgal)]
      simp only [bind, Except.bind]
      rw [hrun]
    · exact List.mem_append_left _ (hext.ordered v hv)
    · have hle := hext.unvisited
      dsimp only at hle ⊢
      omega

/-- The rounds of `init` from `i` on. -/
theorem initLoop_ok {depth : Nat} (hlt : gal.length < 2 ^ 32) (fuel : Nat) {i : Nat} {st : Visits}
    (h : Searched gal [] st) (hdepth : st.visited.count false ≤ depth) (hi : i ≤ gal.length)
    (hdone : ∀ v < i, v ∈ st.ordered) (hfuel : gal.length < i + fuel) :
    ∃ st', initLoop gal depth fuel i st = .ok st' ∧ Searched gal [] st' ∧
      ∀ v < gal.length, v ∈ st'.ordered := by
  induction fuel generalizing i st with
  | zero => omega
  | succ fuel ih =>
    rw [initLoop]
    by_cases hmore : i < gal.length
    · have hstep : (i + 1) % 2 ^ 32 = i + 1 := Nat.mod_eq_of_lt (by omega)
      obtain ⟨st₁, hrun, hext, hmem⟩ := unlessVisited_finishes h hmore List.not_mem_nil
        fun hfalse => DFS_topological_sort_finishes hrange hacyclic depth h hfalse
          (fun a ha => absurd ha List.not_mem_nil) hdepth
      rw [if_pos hmore, hrun, hstep]
      apply ih hext.searched (le_trans hext.unvisited hdepth) hmore ?_ (by omega)
      intro v hv
      rcases Nat.lt_succ_iff_lt_or_eq.mp hv with hv | rfl
      · exact hext.ordered v (hdone v hv)
      · exact hmem
    · rw [if_neg hmore]
      exact ⟨st, rfl, h, fun v hv => hdone v (by omega)⟩

omit hrange hacyclic in
/-- The counter does not reach a number of nodes that it cannot hold. -/
theorem initLoop_ne_ok {depth : Nat} (hlt : 2 ^ 32 ≤ gal.length) (fuel : Nat) {i : Nat}
    {st : Visits} (hi : i < 2 ^ 32) (st' : Visits) : initLoop gal depth fuel i st ≠ .ok st' := by
  induction fuel generalizing i st with
  | zero => exact fun heq => nomatch heq
  | succ fuel ih =>
    rw [initLoop, if_pos (lt_of_lt_of_le hi hlt)]
    cases st.unlessVisited (DFS_topological_sort gal depth) i with
    | error e => exact fun heq => nomatch heq
    | ok st₁ => exact ih (Nat.mod_lt _ (by decide))

end Order

/-! ## A call of `exec` -/

/-- What `dist` holds for a node. -/
def distance (dist : List ℚ) (v : Nat) : ℚ := dist.getD v max_value

theorem getElem?_of_length {n v : Nat} {dist : List ℚ} (hdist : dist.length = n) (hv : v < n) :
    dist[v]? = some (distance dist v) := by
  rw [distance, List.getD_eq_getElem?_getD, List.getElem?_eq_getElem (hdist.symm ▸ hv)]
  rfl

theorem distance_set {n v : Nat} {dist : List ℚ} (hdist : dist.length = n) (hv : v < n) (c : ℚ) :
    distance (dist.set v c) = Function.update (distance dist) v c := by
  have hlt : v < dist.length := hdist.symm ▸ hv
  funext x
  rw [distance, List.getD_eq_getElem?_getD, List.getElem?_set]
  by_cases hx : v = x
  · subst hx
    rw [if_pos rfl, if_pos hlt, Function.update_self]
    rfl
  · rw [if_neg hx, Function.update_of_ne (Ne.symm hx), distance, List.getD_eq_getElem?_getD]

theorem distance_replicate (n : Nat) :
    distance (List.replicate n max_value) = fun _ => max_value := by
  funext v
  rw [distance, List.getD_eq_getElem?_getD, List.getElem?_replicate]
  split <;> rfl

namespace DAG_SSSP

def successors (self : DAG_SSSP) (u : Nat) : List Nat := self.gal.getD u []

def weight (self : DAG_SSSP) (u v : Nat) : ℚ := (self.edge_weight (u, v)).getD 0

end DAG_SSSP

/-- The edges with the weight they were last added with. -/
def Last (edges : List (Nat × Nat × ℚ)) (u v : Nat) (w : ℚ) : Prop := lastWeight edges u v = some w

/-- The object between `init` and the calls of `exec`. -/
structure Ready (n : Nat) (edges : List (Nat × Nat × ℚ)) (solver : DAG_SSSP) : Prop
    extends Stores n edges solver where
  forward : Forward (fun u v => v ∈ solver.successors u) solver.ordered.reverse
  all : ∀ v, v ∈ solver.ordered ↔ v < n
  range : ∀ u, ∀ v ∈ solver.successors u, v < n

/-- `dist` holds what a sweep from the source leaves behind. -/
structure Swept (n : Nat) (solver : DAG_SSSP) (source : Nat) (dist : List ℚ) : Prop where
  source_lt : source < n
  length : dist.length = n
  distance : distance dist = sweep solver.successors solver.weight max_value
    solver.ordered.reverse (origin max_value source)

section Exec

variable {n u v : Nat} {edges : List (Nat × Nat × ℚ)} {solver : DAG_SSSP} {dist : List ℚ}

theorem Stores.edge_weight (h : Stores n edges solver) (hv : v ∈ solver.successors u) :
    solver.edge_weight (u, v) = some (solver.weight u v) := by
  obtain ⟨w, hmem⟩ := (h.successors u v).mp hv
  obtain ⟨w', hlast⟩ := exists_lastWeight hmem
  rw [DAG_SSSP.weight, h.weights, hlast]
  rfl

/-- The sweep goes along the weights added last. -/
theorem Stores.along (h : Stores n edges solver) :
    Along solver.successors solver.weight = Last edges := by
  funext u v w
  apply propext
  rw [Last, ← h.weights]
  constructor
  · rintro ⟨hv, rfl⟩
    exact h.edge_weight hv
  · intro hw
    have hmem := mem_of_lastWeight ((h.weights u v).symm.trans hw)
    refine ⟨(h.successors u v).mpr ⟨w, hmem⟩, ?_⟩
    rw [DAG_SSSP.weight, hw]
    rfl

theorem Ready.relax (h : Ready n edges solver) (hv : v ∈ solver.successors u)
    (hdist : dist.length = n) (c : ℚ) :
    ∃ dist', solver.relax u c dist v = .ok dist' ∧ dist'.length = n ∧
      distance dist' = relaxEdge c (solver.weight u) (distance dist) v := by
  have hlt := h.range u v hv
  rw [DAG_SSSP.relax, h.edge_weight hv, relaxEdge]
  dsimp only
  rw [vectorAt_eq (getElem?_of_length hdist hlt)]
  by_cases hless : c + solver.weight u v < distance dist v
  · refine ⟨dist.set v (c + solver.weight u v), ?_, List.length_set.trans hdist, ?_⟩
    · exact (if_pos hless).trans (vectorPut_eq (hdist.symm ▸ hlt) _)
    · rw [if_pos hless, distance_set hdist hlt]
  · exact ⟨dist, if_neg hless, hdist, by rw [if_neg hless]⟩

theorem Ready.visit (h : Ready n edges solver) (hu : u < n) (hdist : dist.length = n) :
    ∃ dist', solver.visit dist u = .ok dist' ∧ dist'.length = n ∧
      distance dist' = relaxNode solver.successors solver.weight max_value (distance dist) u := by
  rw [DAG_SSSP.visit, vectorAt_eq (getElem?_of_length hdist hu), relaxNode]
  by_cases hreached : distance dist u ≠ max_value
  · have hloop : ∃ dist', (solver.successors u).foldlM (solver.relax u (distance dist u)) dist =
        .ok dist' ∧ dist'.length = n ∧ distance dist' = (solver.successors u).foldl
          (relaxEdge (distance dist u) (solver.weight u)) (distance dist) := by
      apply foldlM_ok (I := fun done dist' => dist'.length = n ∧ distance dist' =
        done.foldl (relaxEdge (distance dist u) (solver.weight u)) (distance dist))
      · rintro done dist₁ v hv ⟨hlength, hview⟩
        obtain ⟨dist₂, hrun, hlength', hview'⟩ := h.relax hv hlength (distance dist u)
        refine ⟨dist₂, hrun, hlength', ?_⟩
        rw [hview', hview, List.foldl_append]
        rfl
      · exact ⟨hdist, rfl⟩
    obtain ⟨dist', hrun, hlength, hview⟩ := hloop
    refine ⟨dist', ?_, hlength, ?_⟩
    · have hat := getElem?_of_lt (h.nodes.symm ▸ hu : u < solver.gal.length)
      simp only [bind, Except.bind]
      rw [if_pos hreached, vectorAt_eq hat]
      exact hrun
    · rw [if_pos hreached, hview]
  · exact ⟨dist, if_neg hreached, hdist, by rw [if_neg hreached]⟩

/-- A call leaves the object as it is, whatever is in the vector that it is given. -/
theorem Ready.exec (h : Ready n edges solver) {source : Nat} (hsource : source < n)
    (dist : List ℚ) :
    ∃ dist', solver.exec source dist = .ok (solver, dist') ∧ Swept n solver source dist' := by
  have hstart : (List.replicate n max_value).length = n := List.length_replicate
  have hloop : ∃ dist', solver.ordered.reverse.foldlM solver.visit
      ((List.replicate n max_value).set source 0) = .ok dist' ∧ dist'.length = n ∧
        distance dist' = sweep solver.successors solver.weight max_value solver.ordered.reverse
          (origin max_value source) := by
    apply foldlM_ok (I := fun done dist' => dist'.length = n ∧ distance dist' =
      sweep solver.successors solver.weight max_value done (origin max_value source))
    · rintro done dist₁ u hu ⟨hlength, hview⟩
      have hlt := (h.all u).mp (List.mem_reverse.mp hu)
      obtain ⟨dist₂, hrun, hlength', hview'⟩ := h.visit hlt hlength
      refine ⟨dist₂, hrun, hlength', ?_⟩
      rw [hview', hview, sweep_append_singleton]
    · refine ⟨List.length_set.trans hstart, ?_⟩
      rw [distance_set hstart hsource, distance_replicate]
      rfl
  obtain ⟨dist', hrun, hlength, hview⟩ := hloop
  refine ⟨dist', ?_, hsource, hlength, hview⟩
  rw [DAG_SSSP.exec, h.nodes, vectorPut_eq (hstart.symm ▸ hsource)]
  simp only [bind, Except.bind]
  rw [hrun]

/-- Calls one after the other: each leaves to the next the object that it had. -/
theorem Ready.execs (h : Ready n edges solver) {calls : List (Nat × List ℚ)}
    (hcalls : ∀ call ∈ calls, call.1 < n) :
    ∃ dists, solver.execs calls = .ok (solver, dists) ∧
      List.Forall₂ (fun call dist => Swept n solver call.1 dist) calls dists := by
  induction calls with
  | nil => exact ⟨[], rfl, .nil⟩
  | cons call calls ih =>
    obtain ⟨dist, hrun, hswept⟩ := h.exec (hcalls call List.mem_cons_self) call.2
    obtain ⟨dists, hruns, hall⟩ := ih fun c hc => hcalls c (List.mem_cons_of_mem call hc)
    refine ⟨dist :: dists, ?_, .cons hswept hall⟩
    rw [DAG_SSSP.execs, hrun]
    simp only [bind, Except.bind]
    rw [hruns]

end Exec

/-! ## The claimed distances -/

/-- The edges of an acyclic graph with the nodes below `n`. -/
structure Dag (n : Nat) (edges : List (Nat × Nat × ℚ)) : Prop where
  nodes : ∀ e ∈ edges, e.1 < n ∧ e.2.1 < n
  acyclic : ∀ v, ¬ Relation.TransGen (fun u v => ∃ w, (u, v, w) ∈ edges) v v

/-- The edges with every weight they were added with. -/
def Added (edges : List (Nat × Nat × ℚ)) (u v : Nat) (w : ℚ) : Prop := (u, v, w) ∈ edges

/-- `dist` holds the least weights of the paths from `source`, and the sentinel where there are
none. -/
structure Exact (n : Nat) (edges : List (Nat × Nat × ℚ)) (source : Nat) (dist : List ℚ) : Prop where
  length : dist.length = n
  least : ∀ v < n, (∃ t, Route (Added edges) source v t) →
    IsLeast {t | Route (Added edges) source v t} (distance dist v)
  unreached : ∀ v < n, distance dist v = max_value ↔ ¬ ∃ t, Route (Added edges) source v t

/-- The object returns from `init`, and from calls of `exec` one after the other with the exact
distances from their sources. -/
def ShortestPaths (n : Nat) (edges : List (Nat × Nat × ℚ)) : Prop :=
  ∃ bound, ∀ fuel ≥ bound, ∃ solver,
    ((DAG_SSSP.ofNodes n).add_edges edges >>= DAG_SSSP.init fuel) = .ok solver ∧
      ∀ calls : List (Nat × List ℚ), (∀ call ∈ calls, call.1 < n) →
        ∃ solver' dists, solver.execs calls = .ok (solver', dists) ∧
          List.Forall₂ (fun call dist => Exact n edges call.1 dist) calls dists

/-- The number of nodes is an `unsigned int`, no edge that was added is lighter than all paths with
the weights added last, and whatever these reach they reach below the sentinel. -/
structure Representable (n : Nat) (edges : List (Nat × Nat × ℚ)) : Prop where
  nodes : n < 2 ^ 32
  kept : ∀ u v w, Added edges u v w → ∃ t ≤ w, Route (Last edges) u v t
  below : ∀ u < n, ∀ v t, Route (Last edges) u v t → ∃ t' < max_value, Route (Last edges) u v t'

section Claim

variable {n : Nat} {edges : List (Nat × Nat × ℚ)} {solver : DAG_SSSP}

/-- From the constructor to the end of `init`. -/
theorem Dag.init_ok (h : Dag n edges) (hn : n < 2 ^ 32) {fuel : Nat} (hfuel : n < fuel) :
    ∃ solver, ((DAG_SSSP.ofNodes n).add_edges edges >>= DAG_SSSP.init fuel) = .ok solver ∧
      Ready n edges solver := by
  obtain ⟨solver, hadded, hstores, hvisits⟩ := add_edges_stores fun e he => (h.nodes e he).1
  have hleads : Leads solver.gal = fun u v => ∃ w, (u, v, w) ∈ edges := by
    funext u v
    exact propext (hstores.successors u v)
  have hrange : ∀ u v, Leads solver.gal u v → v < solver.gal.length := by
    intro u v hv
    rw [hleads] at hv
    obtain ⟨w, hmem⟩ := hv
    rw [hstores.nodes]
    exact (h.nodes _ hmem).2
  have hacyclic : ∀ v, ¬ Relation.TransGen (Leads solver.gal) v v := by
    rw [hleads]
    exact h.acyclic
  have hcount : (List.replicate n false).count false ≤ fuel := by
    rw [List.count_replicate_self]
    exact hfuel.le
  obtain ⟨visits, hrun, hsearched, hall⟩ := initLoop_ok hrange hacyclic (hstores.nodes.symm ▸ hn)
    fuel (searched_nil n solver.gal hstores.nodes) hcount (Nat.zero_le _)
    (fun v hv => absurd hv (Nat.not_lt_zero v)) (by rw [hstores.nodes]; omega)
  refine ⟨{ solver with toVisits := visits }, ?_, ⟨hstores.nodes, hstores.successors,
    hstores.weights⟩, hsearched.forward, fun v => ⟨fun hv => ?_, fun hv => ?_⟩, fun u v hv => ?_⟩
  · rw [hadded]
    simp only [bind, Except.bind, DAG_SSSP.init]
    rw [hvisits, hrun]
  · have hseen := (hsearched.visited v).mpr (Or.inl hv)
    have hlt := (List.getElem?_eq_some_iff.mp hseen).1
    rwa [hsearched.length, hstores.nodes] at hlt
  · exact hall v (hstores.nodes.symm ▸ hv)
  · exact hstores.nodes ▸ hrange u v hv

theorem max_value_pos : 0 < max_value := by
  rw [max_value]
  positivity

theorem Dag.route_lt (h : Dag n edges) {u v : Nat} {t : ℚ} (hu : u < n)
    (hroute : Route (Added edges) u v t) : v < n := by
  apply hroute.mem (S := {v | v < n}) hu
  intro x _ y w hedge
  exact (h.nodes (x, y, w) hedge).2

theorem Route.added {u v : Nat} {t : ℚ} (h : Route (Last edges) u v t) :
    Route (Added edges) u v t := h.mono fun _ _ _ => mem_of_lastWeight

/-- A distance is the sentinel, or the weight of a path and below the sentinel. -/
theorem Ready.reached (h : Ready n edges solver) {source : Nat} {dist : List ℚ}
    (hswept : Swept n solver source dist) :
    Reached (Last edges) max_value source (distance dist) := by
  rw [hswept.distance, ← h.along]
  exact sweep_reached _ (reached_origin max_value_pos source)

theorem Ready.exact (h : Ready n edges solver) (hrep : Representable n edges) {source : Nat}
    {dist : List ℚ} (hswept : Swept n solver source dist) : Exact n edges source dist := by
  have hclosed : ∀ u ∈ solver.ordered.reverse, ∀ v ∈ solver.successors u,
      v ∈ solver.ordered.reverse := fun u _ v hv =>
    List.mem_reverse.mpr ((h.all v).mpr (h.range u v hv))
  have hmem : source ∈ solver.ordered.reverse :=
    List.mem_reverse.mpr ((h.all source).mpr hswept.source_lt)
  have hbelow := hrep.below source hswept.source_lt
  rw [← h.along] at hbelow
  have hkept : ∀ {v t}, Route (Added edges) source v t → ∃ t' ≤ t, Route (Last edges) source v t' :=
    fun hroute => hroute.exists_le hrep.kept
  refine ⟨hswept.length, ?_, fun v _ => ?_⟩
  · rintro v - ⟨t, hroute⟩
    obtain ⟨t', _, hlast⟩ := hkept hroute
    rw [← h.along] at hlast
    have hleast := sweep_isLeast h.forward hclosed hmem hbelow max_value_pos hlast
    rw [← hswept.distance, h.along] at hleast
    refine ⟨Route.added hleast.1, fun t₁ hroute₁ => ?_⟩
    obtain ⟨t₂, hle, hlast₂⟩ := hkept hroute₁
    exact le_trans (hleast.2 hlast₂) hle
  · rw [hswept.distance, sweep_eq_top_iff h.forward hclosed hmem hbelow max_value_pos, h.along]
    apply not_congr
    constructor
    · rintro ⟨t, hlast⟩
      exact ⟨t, Route.added hlast⟩
    · rintro ⟨t, hroute⟩
      obtain ⟨t', _, hlast⟩ := hkept hroute
      exact ⟨t', hlast⟩

theorem Dag.shortestPaths (h : Dag n edges) (hrep : Representable n edges) :
    ShortestPaths n edges := by
  refine ⟨n + 1, fun fuel hfuel => ?_⟩
  obtain ⟨solver, hrun, hready⟩ := h.init_ok hrep.nodes hfuel
  refine ⟨solver, hrun, fun calls hcalls => ?_⟩
  obtain ⟨dists, hruns, hswept⟩ := hready.execs hcalls
  exact ⟨solver, dists, hruns, hswept.imp fun _ _ => hready.exact hrep⟩

/-- What a call leaves behind for a node is exact only as the weight of a path. -/
theorem ShortestPaths.exact (h : ShortestPaths n edges) (hdag : Dag n edges) (hn : n < 2 ^ 32)
    {u : Nat} (hu : u < n) :
    ∃ dist, Exact n edges u dist ∧ Reached (Last edges) max_value u (distance dist) := by
  obtain ⟨bound, hbound⟩ := h
  obtain ⟨solver, hrun, hcalls⟩ := hbound (max bound (n + 1)) (le_max_left ..)
  obtain ⟨solver', hrun', hready⟩ := hdag.init_ok hn (le_max_right bound (n + 1))
  rw [hrun'] at hrun
  cases hrun
  obtain ⟨dist, hexec, hswept⟩ := hready.exec hu []
  obtain ⟨solver₁, dists, hexecs, hexact⟩ := hcalls [(u, [])] fun call hcall => by
    rwa [List.mem_singleton.mp hcall]
  rw [DAG_SSSP.execs, hexec] at hexecs
  cases hexecs
  cases hexact with
  | cons hexact _ => exact ⟨dist, hexact, hready.reached hswept⟩

theorem ShortestPaths.representable (h : ShortestPaths n edges) (hdag : Dag n edges) :
    Representable n edges := by
  have hn : n < 2 ^ 32 := by
    by_contra hge
    obtain ⟨bound, hbound⟩ := h
    obtain ⟨solver, hrun, -⟩ := hbound bound (le_refl bound)
    obtain ⟨built, hadded, hstores, -⟩ := add_edges_stores fun e he => (hdag.nodes e he).1
    rw [hadded] at hrun
    have hnodes : 2 ^ 32 ≤ built.gal.length := by
      rw [hstores.nodes]
      exact not_lt.mp hge
    have hinit : ∀ visits, initLoop built.gal bound bound 0 built.toVisits ≠ .ok visits :=
      initLoop_ne_ok hnodes bound (by decide)
    simp only [bind, Except.bind, DAG_SSSP.init] at hrun
    split at hrun
    · cases hrun
    · rename_i visits heq
      exact hinit visits heq
  -- What is reached at all has a distance below the sentinel, and that is the weight of a path.
  have hlight : ∀ u < n, ∀ v t, Route (Added edges) u v t →
      ∃ t' ≤ t, t' < max_value ∧ Route (Last edges) u v t' := by
    intro u hu v t hroute
    obtain ⟨dist, hexact, hreached⟩ := h.exact hdag hn hu
    have hv := hdag.route_lt hu hroute
    have hsome : ¬ ¬ ∃ t, Route (Added edges) u v t := not_not.mpr ⟨t, hroute⟩
    have hne : distance dist v ≠ max_value := fun heq => hsome ((hexact.unreached v hv).mp heq)
    obtain ⟨hlt, hlast⟩ := (hreached v).resolve_left hne
    exact ⟨distance dist v, (hexact.least v hv ⟨t, hroute⟩).2 hroute, hlt, hlast⟩
  refine ⟨hn, fun u v w hedge => ?_, fun u hu v t hroute => ?_⟩
  · obtain ⟨t, hle, -, hlast⟩ := hlight u (hdag.nodes _ hedge).1 v w (.single hedge)
    exact ⟨t, hle, hlast⟩
  · obtain ⟨t', -, hlt, hlast⟩ := hlight u hu v t (Route.added hroute)
    exact ⟨t', hlt, hlast⟩

theorem shortestPaths_iff (hdag : Dag n edges) : ShortestPaths n edges ↔ Representable n edges :=
  ⟨fun h => h.representable hdag, hdag.shortestPaths⟩

/-- Delays that are added with their signs changed stay below the sentinel. -/
theorem representable_of_nonpos (hn : n < 2 ^ 32) (hlast : ∀ u v w w', Added edges u v w →
    Last edges u v w' → w' ≤ w) (hnonpos : ∀ e ∈ edges, e.2.2 ≤ 0) : Representable n edges where
  nodes := hn
  kept u v w hedge := by
    obtain ⟨w', hw'⟩ := exists_lastWeight hedge
    exact ⟨w', hlast u v w w' hedge hw', .single hw'⟩
  below u _ v t hroute := by
    have hle : t ≤ 0 := by
      induction hroute with
      | refl => exact le_refl 0
      | snoc _ edge ih => exact add_nonpos ih (hnonpos _ (mem_of_lastWeight edge))
    exact ⟨t, lt_of_le_of_lt hle max_value_pos, hroute⟩

/-- Nodes are numbered in an order of the graph. -/
theorem dag_of_lt (h : ∀ e ∈ edges, e.1 < e.2.1 ∧ e.2.1 < n) : Dag n edges where
  nodes e he := ⟨lt_trans (h e he).1 (h e he).2, (h e he).2⟩
  acyclic v hcycle := by
    have hlt : ∀ y, Relation.TransGen (fun u v => ∃ w, (u, v, w) ∈ edges) v y → v < y := by
      intro y hreach
      induction hreach with
      | single hedge =>
        obtain ⟨w, hmem⟩ := hedge
        exact (h _ hmem).1
      | tail _ hedge ih =>
        obtain ⟨w, hmem⟩ := hedge
        exact lt_trans ih (h _ hmem).1
    exact lt_irrefl v (hlt v hcycle)

end Claim

theorem shortestPaths_lighter_last : ShortestPaths 3 [(0, 1, -2), (0, 1, -5), (1, 2, -1)] := by
  apply (shortestPaths_iff (dag_of_lt (by decide))).mpr
  apply representable_of_nonpos (by decide) _ (by decide +kernel)
  intro u v w w' hadded hlast
  simp only [Added, List.mem_cons, Prod.mk.injEq, List.not_mem_nil, or_false] at hadded
  rcases hadded with ⟨rfl, rfl, rfl⟩ | ⟨rfl, rfl, rfl⟩ | ⟨rfl, rfl, rfl⟩ <;> cases hlast <;>
    decide +kernel

/-- The light edge that was added before is lost. -/
theorem not_shortestPaths : Dag 2 [(0, 1, 1), (0, 1, 5)] ∧
    (∀ e ∈ [((0 : Nat), (1 : Nat), (1 : ℚ)), (0, 1, 5)], e.2.2 < max_value) ∧
      ¬ ShortestPaths 2 [(0, 1, 1), (0, 1, 5)] := by
  have hdag : Dag 2 [(0, 1, 1), (0, 1, 5)] := dag_of_lt (by decide)
  refine ⟨hdag, by decide +kernel, fun h => ?_⟩
  have hroutes : ∀ v t, Route (Last [(0, 1, 1), (0, 1, 5)]) 0 v t →
    v = 0 ∧ t = 0 ∨ v = 1 ∧ t = 5 := by
    intro v t hroute
    induction hroute with
    | refl => exact Or.inl ⟨rfl, rfl⟩
    | snoc _ edge ih =>
      have hmem := mem_of_lastWeight edge
      simp only [List.mem_cons, Prod.mk.injEq, List.not_mem_nil, or_false] at hmem
      rcases hmem with ⟨rfl, rfl, -⟩ | ⟨rfl, rfl, -⟩ <;> cases edge <;>
        exact Or.inr ⟨rfl, by rw [(ih.resolve_right fun h => absurd h.1 (by decide)).2, zero_add]⟩
  obtain ⟨t, hle, hroute⟩ := (h.representable hdag).kept 0 1 1 (by simp [Added])
  obtain ⟨h, -⟩ | ⟨-, rfl⟩ := hroutes 1 t hroute
  · cases h
  · exact absurd hle (by decide +kernel)

/-- The other edge between the two nodes is taken instead. -/
example : ((DAG_SSSP.ofNodes 2).add_edges [(0, 1, 1), (0, 1, 5)] >>= DAG_SSSP.init 3 >>=
    fun solver => (solver.exec 0 []).map Prod.snd).toOption = some [0, 5] := by
  decide +kernel

end DagSssp
end Bambu
