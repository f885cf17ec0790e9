/-
  Bambu.HLS.FalseLoop

  `cdfc_module_binding`: the removal of false loops before resources are shared.

  A false loop takes turns between compatibility edges and paths of chained operations.  A start
  from which a search has found no loop is not searched again, and a round without any loop is the
  last one, so that what a bounded search misses stays.
-/

import Bambu.Math.Contraction
import Bambu.Utility.Common
import Mathlib.Data.Finset.Card
import Mathlib.Data.Prod.Lex

namespace Bambu
namespace HLS
namespace FalseLoop

open Bambu.Math
open Relation (TransGen ReflTransGen)

/-! ## The cdfc graph -/

def CD_EDGE : Nat := 1
def COMPATIBILITY_EDGE : Nat := 2

structure Edge where
  source : Nat
  target : Nat
  selector : Nat
  weight : Int
  deriving DecidableEq

/-- `cdfc_bulk_graph`: the edges in the order of their insertion. -/
abbrev Graph := List Edge

/-- `cdfc_graph_edge_selector`. -/
def selected (selector : Nat) (e : Edge) : Bool := selector &&& e.selector != 0

namespace Graph

variable (g : Graph) (selector : Nat)

def out_edges (v : Nat) : List Edge := g.filter fun e => e.source = v ∧ selected selector e
def in_edges (v : Nat) : List Edge := g.filter fun e => e.target = v ∧ selected selector e
def out_degree (v : Nat) : Nat := (out_edges g selector v).length
def in_degree (v : Nat) : Nat := (in_edges g selector v).length

/-- `boost::edge` of a filtered graph: the edge of the bulk graph, when the filter lets it pass. -/
def edge (u v : Nat) : Option Edge :=
  (g.find? fun e => e.source = u ∧ e.target = v).filter (selected selector)

/-- `cdfc_bulk_graph[e].selector = 0`. -/
def unselect (e : Edge) : Graph :=
  g.map fun e' =>
    if e'.source = e.source ∧ e'.target = e.target then { e' with selector := 0 } else e'

end Graph

/-- `cd_levels`, by the topologically sorted vertices. -/
def cd_levels (g : Graph) (Csorted_vertices : List Nat) : Nat → Int :=
  Csorted_vertices.foldl (fun cd_levels sv =>
    Function.update cd_levels sv ((g.in_edges CD_EDGE sv).foldl (fun level ie =>
      if g.in_degree COMPATIBILITY_EDGE ie.source ≠ 0 then max level (1 + cd_levels ie.source)
      else max level (cd_levels ie.source)) 0)) fun _ => 0

/-! ## The search -/

structure Search where
  visited : Nat → Bool
  cg_visited : Nat → Bool
  cdfc_visited : Nat → Bool
  candidate_edges : List Edge

/-- The loop over the out edges, up to the first that leads to a loop. -/
def anyEdge (search : Edge → Search → Except Error (Bool × Search)) :
    List Edge → Search → Except Error (Bool × Search)
  | [], st => .ok (false, st)
  | oe :: rest, st => (search oe st).bind fun r =>
    if r.1 then .ok r else anyEdge search rest r.2

/-- The target is visited during the call, and after it when a loop has been found. -/
def descend (tgt : Nat) (search : Search → Except Error (Bool × Search)) (st : Search) :
    Except Error (Bool × Search) :=
  if st.visited tgt then .ok (false, st)
  else (search { st with visited := Function.update st.visited tgt true }).map fun r =>
    if r.1 then r else (false, { r.2 with visited := Function.update r.2.visited tgt false })

def push_front (e : Edge) (r : Bool × Search) : Bool × Search :=
  if r.1 then (true, { r.2 with candidate_edges := e :: r.2.candidate_edges }) else r

mutual

/-- `false_loop_search_cdfc_1`, with a bound on the depth of the recursion. -/
def false_loop_search_cdfc_1 (g : Graph) (k start : Nat) :
    Nat → Nat → Nat → Search → Except Error (Bool × Search)
  | 0, _, _, _ => .error .outOfFuel
  | fuel + 1, src, level, st =>
    if level > k then .ok (false, st)
    else if st.cdfc_visited src then .ok (false, st)
    else anyEdge (fun oe => descend oe.target fun st =>
        if (g.edge COMPATIBILITY_EDGE src oe.target).isSome then .ok (false, st)
        else false_loop_search_cdfc_more g k start fuel oe.target level st)
      (g.out_edges (CD_EDGE ||| COMPATIBILITY_EDGE) src)
      { st with cdfc_visited := Function.update st.cdfc_visited src true }

def false_loop_search_cdfc_more (g : Graph) (k start : Nat) :
    Nat → Nat → Nat → Search → Except Error (Bool × Search)
  | 0, _, _, _ => .error .outOfFuel
  | fuel + 1, src, level, st =>
    if start = src then .ok (true, st)
    else if st.cg_visited src then .ok (false, st)
    else anyEdge (fun oe => descend oe.target fun st =>
        if selected COMPATIBILITY_EDGE oe then
          (false_loop_search_cdfc_1 g k start fuel oe.target (level + 1) st).map (push_front oe)
        else false_loop_search_cdfc_more g k start fuel oe.target level st)
      (g.out_edges (CD_EDGE ||| COMPATIBILITY_EDGE) src)
      { st with cg_visited := Function.update st.cg_visited src true }

end

/-- The search over one compatibility edge of the start. -/
def searchOver (g : Graph) (num_vertices start k : Nat) (oe_cg : Edge) (st : Search) :
    Except Error (Bool × Search) :=
  (false_loop_search_cdfc_1 g k start num_vertices oe_cg.target 1
    { st with visited := Function.update st.visited oe_cg.target true }).map fun r =>
      if r.1 then push_front oe_cg r
      else (false, { r.2 with visited := Function.update r.2.visited oe_cg.target false })

/-- `false_loop_search`: whether it has found a loop, and the compatibility edges of the loop. -/
def false_loop_search (g : Graph) (num_vertices start k : Nat) : Except Error (Bool × List Edge) :=
  (anyEdge (searchOver g num_vertices start k) (g.out_edges COMPATIBILITY_EDGE start)
    { visited := fun _ => false
      cg_visited := Function.update (fun _ => false) start true
      cdfc_visited := fun _ => false
      candidate_edges := [] }).map fun r => (r.1, r.2.candidate_edges)

/-! ## The removal -/

/-- The edge is removed rather than the candidate so far. -/
def preferred (g : Graph) (cd_levels : Nat → Int) (cand e : Edge) : Bool :=
  let level_difference (e : Edge) := (cd_levels e.source - cd_levels e.target).natAbs
  let out_degree (e : Edge) :=
    g.out_degree COMPATIBILITY_EDGE e.source + g.out_degree COMPATIBILITY_EDGE e.target
  level_difference e > level_difference cand ∨
    (level_difference e = level_difference cand ∧ out_degree e > out_degree cand) ∨
    (level_difference e = level_difference cand ∧ out_degree e = out_degree cand ∧
      e.weight < cand.weight)

/-- Both the compatibility edges of one candidate are removed. -/
def removeLoop (g : Graph) (cd_levels : Nat → Int) : List Edge → Except Error Graph
  | [] => .error (.assertion "something of unexpected happen")
  | cand :: rest =>
    let cand_e := rest.foldl (fun cand e => if preferred g cd_levels cand e then e else cand) cand
    let g := g.unselect cand_e
    match g.edge COMPATIBILITY_EDGE cand_e.target cand_e.source with
    | none => .error (.assertion "edge already removed")
    | some e => .ok (g.unselect e)

/-- What the phase reads. -/
structure Input where
  graph : Graph
  num_vertices : Nat
  Csorted_vertices : List Nat
  all_candidate_vertices : List Nat

/-- The state between two searches. -/
structure State where
  graph : Graph
  k : Nat
  no_cycles : Finset Nat
  restart : Bool
  /-- The candidates of the round that are left. -/
  rest : List Nat
  /-- The loop that the last search from the first of them has found. -/
  candidate_edges : Option (List Edge)

def init (input : Input) : State where
  graph := input.graph
  k := 2
  no_cycles := ∅
  restart := false
  rest := input.all_candidate_vertices
  candidate_edges := none

/-- One step, with at most one search; `none` after the last round. -/
def step (input : Input) (st : State) : Except Error (Option State) :=
  let levels := cd_levels input.graph input.Csorted_vertices
  match st.rest, st.candidate_edges with
  -- The end of a round.
  | [], _ =>
    if st.restart then
      .ok (some { st with k := st.k + 1, restart := false, rest := input.all_candidate_vertices })
    else .ok none
  -- `while(found_a_loop)`: the loop is removed and another one is searched for.
  | start :: rest, some candidate_edges =>
    (removeLoop st.graph levels candidate_edges).bind fun graph =>
      (false_loop_search graph input.num_vertices start st.k).map fun r =>
        if r.1 then some { st with graph := graph, candidate_edges := some r.2 }
        else some { st with graph := graph, rest := rest, candidate_edges := none }
  | start :: rest, none =>
    if start ∈ st.no_cycles then .ok (some { st with rest := rest })
    else if levels start ≠ 0 ∧ st.graph.in_degree COMPATIBILITY_EDGE start ≠ 0 then
      (false_loop_search st.graph input.num_vertices start st.k).map fun r =>
        if r.1 then some { st with restart := true, candidate_edges := some r.2 }
        else some { st with no_cycles := insert start st.no_cycles, rest := rest }
    else .ok (some { st with no_cycles := insert start st.no_cycles, rest := rest })

/-- The phase, with a bound on its steps. -/
def run (input : Input) : Nat → State → Except Error State
  | 0, _ => .error .outOfFuel
  | fuel + 1, st => (step input st).bind fun next =>
    match next with
    | none => .ok st
    | some st => run input fuel st

/-- The states that the phase goes through. -/
inductive Reachable (input : Input) : State → Prop
  | init : Reachable input (init input)
  | step {st st' : State} : Reachable input st → step input st = .ok (some st') →
    Reachable input st'

/-! ## Chains, compatibility and loops -/

def Chained (g : Graph) (x y : Nat) : Prop :=
  ∃ e ∈ g, (e.source = x ∧ e.target = y) ∧ selected CD_EDGE e = true

def Compatible (g : Graph) (x y : Nat) : Prop :=
  ∃ e ∈ g, (e.source = x ∧ e.target = y) ∧ selected COMPATIBILITY_EDGE e = true

/-- A false loop that leaves the operation over a compatibility edge. -/
def OnLoop (g : Graph) (s : Nat) : Prop := TransGen (Turn (Chained g) (Compatible g)) s s

/-- What the phase is given: one edge for each ordered pair, chains without cycles in topological
order, and compatibility in both directions between the candidates. -/
structure WellFormed (input : Input) : Prop where
  selector : ∀ e ∈ input.graph, e.selector = CD_EDGE ∨ e.selector = COMPATIBILITY_EDGE
  nodup : (input.graph.map fun e => (e.source, e.target)).Nodup
  lt : ∀ e ∈ input.graph, e.target < input.num_vertices
  ne : ∀ e ∈ input.graph, e.source ≠ e.target
  symmetric : ∀ x y, Compatible input.graph x y → Compatible input.graph y x
  acyclic : ∀ x, ¬ TransGen (Chained input.graph) x x
  sorted_nodup : input.Csorted_vertices.Nodup
  sorted_mem : ∀ x y, Chained input.graph x y →
    x ∈ input.Csorted_vertices ∧ y ∈ input.Csorted_vertices
  sorted : input.Csorted_vertices.Pairwise fun a b => ¬ Chained input.graph b a
  candidates : ∀ x y, Compatible input.graph x y → x ∈ input.all_candidate_vertices

/-- A graph without the edges of some pairs. -/
def prune (g : Graph) (removed : Finset (Nat × Nat)) : Graph :=
  g.map fun e => if (e.source, e.target) ∈ removed then { e with selector := 0 } else e

section Prune

variable {g : Graph} {removed : Finset (Nat × Nat)} {selector : Nat}

theorem selected_zero (e : Edge) : selected selector { e with selector := 0 } = false := by
  simp [selected]

theorem mem_prune {e : Edge} (he : selected selector e = true) :
    e ∈ prune g removed ↔ e ∈ g ∧ (e.source, e.target) ∉ removed := by
  rw [prune, List.mem_map]
  constructor
  · rintro ⟨e', he', hprune⟩
    split at hprune
    · rw [← hprune, selected_zero] at he
      cases he
    case isFalse hnot =>
      subst hprune
      exact ⟨he', hnot⟩
  · rintro ⟨hmem, hnot⟩
    exact ⟨e, hmem, if_neg hnot⟩

theorem compatible_prune {x y : Nat} :
    Compatible (prune g removed) x y ↔ Compatible g x y ∧ (x, y) ∉ removed := by
  constructor
  · rintro ⟨e, he, ⟨rfl, rfl⟩, hsel⟩
    obtain ⟨hmem, hnot⟩ := (mem_prune hsel).mp he
    exact ⟨⟨e, hmem, ⟨rfl, rfl⟩, hsel⟩, hnot⟩
  · rintro ⟨⟨e, he, ⟨rfl, rfl⟩, hsel⟩, hnot⟩
    exact ⟨e, (mem_prune hsel).mpr ⟨he, hnot⟩, ⟨rfl, rfl⟩, hsel⟩

theorem chained_prune {x y : Nat} :
    Chained (prune g removed) x y ↔ Chained g x y ∧ (x, y) ∉ removed := by
  constructor
  · rintro ⟨e, he, ⟨rfl, rfl⟩, hsel⟩
    obtain ⟨hmem, hnot⟩ := (mem_prune hsel).mp he
    exact ⟨⟨e, hmem, ⟨rfl, rfl⟩, hsel⟩, hnot⟩
  · rintro ⟨⟨e, he, ⟨rfl, rfl⟩, hsel⟩, hnot⟩
    exact ⟨e, (mem_prune hsel).mpr ⟨he, hnot⟩, ⟨rfl, rfl⟩, hsel⟩

theorem unselect_prune (e : Edge) :
    Graph.unselect (prune g removed) e = prune g (insert (e.source, e.target) removed) := by
  rw [Graph.unselect, prune, List.map_map, prune]
  refine List.map_congr_left fun e' _ => ?_
  simp only [Function.comp_apply, Finset.mem_insert, Prod.mk.injEq]
  by_cases hmem : (e'.source, e'.target) ∈ removed
  · simp [hmem]
  · simp [hmem]

theorem prune_empty : prune g ∅ = g := by
  simp [prune]

theorem pairs_prune : (prune g removed).map (fun e => (e.source, e.target)) =
    g.map fun e => (e.source, e.target) := by
  rw [prune, List.map_map]
  refine List.map_congr_left fun e _ => ?_
  simp only [Function.comp_apply]
  split <;> rfl

theorem in_degree_ne_zero {v : Nat} :
    g.in_degree COMPATIBILITY_EDGE v ≠ 0 ↔ ∃ x, Compatible g x v := by
  rw [Graph.in_degree, Graph.in_edges, ← Nat.pos_iff_ne_zero, List.length_pos_iff_exists_mem]
  constructor
  · rintro ⟨e, he⟩
    obtain ⟨hmem, htgt, hsel⟩ := by simpa using he
    exact ⟨e.source, e, hmem, ⟨rfl, htgt⟩, hsel⟩
  · rintro ⟨x, e, hmem, ⟨-, htgt⟩, hsel⟩
    exact ⟨e, by simpa using ⟨hmem, htgt, hsel⟩⟩

/-- With one edge for each pair, `edge` finds it. -/
theorem edge_eq_some (hnodup : (g.map fun e => (e.source, e.target)).Nodup) {e : Edge}
    (he : e ∈ g) (hsel : selected selector e = true) :
    g.edge selector e.source e.target = some e := by
  have hfind : (g.find? fun e' => e'.source = e.source ∧ e'.target = e.target) = some e := by
    cases hfind : g.find? fun e' => e'.source = e.source ∧ e'.target = e.target with
    | none =>
      have hnone := List.find?_eq_none.mp hfind e he
      simp at hnone
    | some e' =>
      have hpair := List.find?_some hfind
      have hmem := List.mem_of_find?_eq_some hfind
      have hinj := List.inj_on_of_nodup_map hnodup hmem he
      rw [hinj (by simpa using hpair)]
  rw [Graph.edge, hfind, Option.filter_some, if_pos hsel]

end Prune

/-! ## What a search returns -/

section Search

variable {g : Graph} {k start num_vertices : Nat} {st : Search}

/-- Without a loop the visited vertices are as before, and with one compatibility edges have been
put in front. -/
structure Outcome (g : Graph) (st : Search) (r : Bool × Search) : Prop where
  none : r.1 = false → r.2.visited = st.visited ∧ r.2.candidate_edges = st.candidate_edges
  some : r.1 = true → ∃ es, r.2.candidate_edges = es ++ st.candidate_edges ∧
    ∀ e ∈ es, e ∈ g ∧ selected COMPATIBILITY_EDGE e = true

theorem Outcome.fail (g : Graph) {st st' : Search} (hvisited : st'.visited = st.visited)
    (hedges : st'.candidate_edges = st.candidate_edges) : Outcome g st (false, st') :=
  ⟨fun _ => ⟨hvisited, hedges⟩, fun h => Bool.noConfusion h⟩

theorem Outcome.of_eq {st' : Search} {r : Bool × Search} (h : Outcome g st' r)
    (hvisited : st'.visited = st.visited) (hedges : st'.candidate_edges = st.candidate_edges) :
    Outcome g st r := by
  refine ⟨fun hfalse => ?_, fun htrue => ?_⟩
  · exact ⟨(h.none hfalse).1.trans hvisited, (h.none hfalse).2.trans hedges⟩
  · obtain ⟨es, hes, hmem⟩ := h.some htrue
    exact ⟨es, hes.trans (congrArg _ hedges), hmem⟩

theorem Outcome.push {r : Bool × Search} (h : Outcome g st r) {e : Edge} (he : e ∈ g)
    (hsel : selected COMPATIBILITY_EDGE e = true) : Outcome g st (push_front e r) := by
  obtain ⟨found, st'⟩ := r
  cases found with
  | false => exact h
  | true =>
    obtain ⟨es, hes, hmem⟩ := h.some rfl
    refine ⟨fun hfalse => Bool.noConfusion hfalse, fun _ => ⟨e :: es, ?_, fun e' he' => ?_⟩⟩
    · show e :: st'.candidate_edges = _
      rw [hes, List.cons_append]
    · obtain rfl | he' := List.mem_cons.mp he'
      · exact ⟨he, hsel⟩
      · exact hmem e' he'

/-- A loop over edges, each search of which starts with the vertices visited as before. -/
theorem anyEdge_spec {search : Edge → Search → Except Error (Bool × Search)} {edges : List Edge}
    (h : ∀ oe ∈ edges, ∀ st', st'.visited = st.visited →
      ∃ r, search oe st' = .ok r ∧ Outcome g st' r) :
    ∃ r, anyEdge search edges st = .ok r ∧ Outcome g st r := by
  induction edges generalizing st with
  | nil => exact ⟨(false, st), rfl, .fail g rfl rfl⟩
  | cons oe rest ih =>
    obtain ⟨⟨found, st₁⟩, hrun, hout⟩ := h oe List.mem_cons_self st rfl
    rw [anyEdge, hrun]
    cases found with
    | true => exact ⟨(true, st₁), rfl, hout⟩
    | false =>
      obtain ⟨hvisited, hedges⟩ := hout.none rfl
      obtain ⟨r, hrest, hr⟩ := ih fun e he st' hst' =>
        h e (List.mem_cons_of_mem _ he) st' (hst'.trans hvisited)
      exact ⟨r, hrest, hr.of_eq hvisited hedges⟩

theorem descend_spec {tgt : Nat} {search : Search → Except Error (Bool × Search)}
    (h : st.visited tgt = false →
      ∃ r, search { st with visited := Function.update st.visited tgt true } = .ok r ∧
        Outcome g { st with visited := Function.update st.visited tgt true } r) :
    ∃ r, descend tgt search st = .ok r ∧ Outcome g st r := by
  unfold descend
  cases hvisited : st.visited tgt with
  | true => exact ⟨(false, st), rfl, .fail g rfl rfl⟩
  | false =>
    obtain ⟨⟨found, st'⟩, hrun, hout⟩ := h hvisited
    rw [hrun]
    cases found with
    | true => exact ⟨(true, st'), rfl, fun hfalse => Bool.noConfusion hfalse, hout.some⟩
    | false =>
      obtain ⟨hv, hedges⟩ := hout.none rfl
      refine ⟨_, rfl, .fail g ?_ hedges⟩
      show Function.update st'.visited tgt false = st.visited
      rw [hv, Function.update_idem, ← hvisited, Function.update_eq_self]

/-- The vertices that are not visited. -/
def unvisited (num_vertices : Nat) (visited : Nat → Bool) : Nat :=
  ((Finset.range num_vertices).filter fun v => visited v = false).card

theorem unvisited_update {visited : Nat → Bool} {v : Nat} (hv : v < num_vertices)
    (hnew : visited v = false) :
    unvisited num_vertices (Function.update visited v true) < unvisited num_vertices visited := by
  refine Finset.card_lt_card (Finset.ssubset_iff_of_subset (fun w hw => ?_) |>.mpr ⟨v, ?_, ?_⟩)
  · rw [Finset.mem_filter] at hw ⊢
    refine ⟨hw.1, ?_⟩
    by_contra hvisited
    have hne : w ≠ v := by
      rintro rfl
      exact hvisited hnew
    rw [Function.update_of_ne hne] at hw
    exact hvisited hw.2
  · exact Finset.mem_filter.mpr ⟨Finset.mem_range.mpr hv, hnew⟩
  · rw [Finset.mem_filter, Function.update_self]
    exact fun h => Bool.noConfusion h.2

/-- The recursion visits a new vertex with each call, so that the vertices bound its depth. -/
theorem search_spec (hlt : ∀ e ∈ g, e.target < num_vertices) (fuel : Nat) :
    (∀ src level (st : Search), unvisited num_vertices st.visited < fuel →
      ∃ r, false_loop_search_cdfc_1 g k start fuel src level st = .ok r ∧ Outcome g st r) ∧
    ∀ src level (st : Search), unvisited num_vertices st.visited < fuel →
      ∃ r, false_loop_search_cdfc_more g k start fuel src level st = .ok r ∧ Outcome g st r := by
  induction fuel with
  | zero =>
    exact ⟨fun _ _ _ h => absurd h (Nat.not_lt_zero _),
      fun _ _ _ h => absurd h (Nat.not_lt_zero _)⟩
  | succ fuel ih =>
    have hmem : ∀ {src oe}, oe ∈ g.out_edges (CD_EDGE ||| COMPATIBILITY_EDGE) src → oe ∈ g :=
      fun hoe => (List.mem_filter.mp hoe).1
    have keep : ∀ {st st' : Search} {x}, st'.visited = st.visited →
        st'.candidate_edges = st.candidate_edges → (∃ r, x = Except.ok r ∧ Outcome g st' r) →
        ∃ r, (x : Except Error _) = .ok r ∧ Outcome g st r :=
      fun hv he ⟨r, hrun, hout⟩ => ⟨r, hrun, hout.of_eq hv he⟩
    constructor
    · intro src level st hst
      rw [false_loop_search_cdfc_1]
      split
      · exact ⟨_, rfl, .fail g rfl rfl⟩
      split
      · exact ⟨_, rfl, .fail g rfl rfl⟩
      refine keep (by rfl) (by rfl)
        (anyEdge_spec fun oe hoe st' hst' => descend_spec fun hnew => ?_)
      split
      · exact ⟨_, rfl, .fail g rfl rfl⟩
      · refine ih.2 _ _ _ (Nat.lt_of_lt_of_le (unvisited_update (hlt oe (hmem hoe)) hnew) ?_)
        rw [hst']
        exact Nat.le_of_lt_succ hst
    · intro src level st hst
      rw [false_loop_search_cdfc_more]
      split
      · exact ⟨_, rfl, fun hfalse => Bool.noConfusion hfalse, fun _ => ⟨[], rfl, by simp⟩⟩
      split
      · exact ⟨_, rfl, .fail g rfl rfl⟩
      refine keep (by rfl) (by rfl)
        (anyEdge_spec fun oe hoe st' hst' => descend_spec fun hnew => ?_)
      have hless : unvisited num_vertices (Function.update st'.visited oe.target true) < fuel := by
        refine Nat.lt_of_lt_of_le (unvisited_update (hlt oe (hmem hoe)) hnew) ?_
        rw [hst']
        exact Nat.le_of_lt_succ hst
      split
      case isTrue hsel =>
        obtain ⟨r, hrun, hout⟩ := ih.1 oe.target (level + 1)
          { st' with visited := Function.update st'.visited oe.target true } hless
        exact ⟨push_front oe r, by rw [hrun]; rfl, hout.push (hmem hoe) hsel⟩
      · exact ih.2 _ _ _ hless

theorem anyEdge_true {search : Edge → Search → Except Error (Bool × Search)} {edges : List Edge}
    {st' : Search} (h : anyEdge search edges st = .ok (true, st')) :
    ∃ oe ∈ edges, ∃ st₁, search oe st₁ = .ok (true, st') := by
  induction edges generalizing st with
  | nil => cases h
  | cons oe rest ih =>
    rw [anyEdge] at h
    cases hrun : search oe st with
    | error e =>
      rw [hrun] at h
      cases h
    | ok r =>
      obtain ⟨found, st₁⟩ := r
      rw [hrun] at h
      cases found with
      | true =>
        cases h
        exact ⟨oe, List.mem_cons_self, st, hrun⟩
      | false =>
        obtain ⟨e, he, hsearch⟩ := ih h
        exact ⟨e, List.mem_cons_of_mem _ he, hsearch⟩

/-- A search ends, and a loop that it has found has compatibility edges. -/
theorem false_loop_search_spec (k start : Nat) (hlt : ∀ e ∈ g, e.target < num_vertices) :
    ∃ r, false_loop_search g num_vertices start k = .ok r ∧ (r.1 = false → r.2 = []) ∧
      (r.1 = true → r.2 ≠ [] ∧ ∀ e ∈ r.2, e ∈ g ∧ selected COMPATIBILITY_EDGE e = true) := by
  have hmem : ∀ {oe}, oe ∈ g.out_edges COMPATIBILITY_EDGE start →
      oe ∈ g ∧ selected COMPATIBILITY_EDGE oe = true := by
    intro oe hoe
    have h := List.mem_filter.mp hoe
    exact ⟨h.1, (of_decide_eq_true h.2).2⟩
  obtain ⟨⟨found, st'⟩, hrun, hout⟩ : ∃ r,
      anyEdge (searchOver g num_vertices start k) (g.out_edges COMPATIBILITY_EDGE start)
        { visited := fun _ => false
          cg_visited := Function.update (fun _ => false) start true
          cdfc_visited := fun _ => false
          candidate_edges := [] } = .ok r ∧ Outcome g _ r := by
    refine anyEdge_spec fun oe hoe st₀ hst₀ => ?_
    have hnew : st₀.visited oe.target = false := by rw [hst₀]
    have hless : unvisited num_vertices (Function.update st₀.visited oe.target true) <
        num_vertices := by
      refine Nat.lt_of_lt_of_le (unvisited_update (hlt oe (hmem hoe).1) hnew) ?_
      exact (Finset.card_filter_le _ _).trans (Finset.card_range _).le
    obtain ⟨⟨found, st₁⟩, hrun, hout⟩ := (search_spec hlt num_vertices).1 oe.target 1
      { st₀ with visited := Function.update st₀.visited oe.target true } hless
    unfold searchOver
    rw [hrun]
    cases found with
    | true =>
      have hpush := hout.push (hmem hoe).1 (hmem hoe).2
      exact ⟨_, rfl, fun hfalse => Bool.noConfusion hfalse, hpush.some⟩
    | false =>
      obtain ⟨hv, hedges⟩ := hout.none rfl
      refine ⟨_, rfl, .fail g ?_ hedges⟩
      show Function.update st₁.visited oe.target false = st₀.visited
      rw [hv, Function.update_idem, ← hnew, Function.update_eq_self]
  refine ⟨(found, st'.candidate_edges), by rw [false_loop_search, hrun]; rfl, ?_, ?_⟩
  · rintro rfl
    exact (hout.none rfl).2
  · rintro rfl
    obtain ⟨es, hes, hcompat⟩ := hout.some rfl
    rw [List.append_nil] at hes
    refine ⟨?_, fun e he => hcompat e (hes ▸ he)⟩
    -- The edge over which the loop was found is one of its edges.
    obtain ⟨oe, -, st₁, hsearch⟩ := anyEdge_true hrun
    unfold searchOver at hsearch
    cases hcall : false_loop_search_cdfc_1 g k start num_vertices oe.target 1
        { st₁ with visited := Function.update st₁.visited oe.target true } with
    | error e =>
      rw [hcall] at hsearch
      cases hsearch
    | ok r =>
      obtain ⟨found, st₂⟩ := r
      rw [hcall] at hsearch
      cases found with
      | true =>
        cases hsearch
        exact List.cons_ne_nil _ _
      | false => cases hsearch

end Search

/-! ## The levels -/

section Levels

variable {g : Graph}

/-- One edge into a vertex. -/
def levelStep (g : Graph) (cd_levels : Nat → Int) (level : Int) (ie : Edge) : Int :=
  if g.in_degree COMPATIBILITY_EDGE ie.source ≠ 0 then max level (1 + cd_levels ie.source)
  else max level (cd_levels ie.source)

/-- The level of one vertex, from those of its predecessors. -/
def levelOf (g : Graph) (cd_levels : Nat → Int) (sv : Nat) : Int :=
  (g.in_edges CD_EDGE sv).foldl (levelStep g cd_levels) 0

theorem cd_levels_eq (Csorted_vertices : List Nat) : cd_levels g Csorted_vertices =
    Csorted_vertices.foldl (fun lv sv => Function.update lv sv (levelOf g lv sv)) fun _ => 0 := rfl

theorem levelStep_spec (lv : Nat → Int) (level : Int) (ie : Edge) :
    level ≤ levelStep g lv level ie ∧ lv ie.source ≤ levelStep g lv level ie ∧
      (g.in_degree COMPATIBILITY_EDGE ie.source ≠ 0 →
        1 + lv ie.source ≤ levelStep g lv level ie) := by
  unfold levelStep
  split
  case isTrue h => exact ⟨le_max_left _ _, by omega, fun _ => le_max_right _ _⟩
  case isFalse h => exact ⟨le_max_left _ _, le_max_right _ _, fun hne => absurd hne h⟩

theorem levelFold_spec (lv : Nat → Int) (edges : List Edge) (level : Int) :
    level ≤ edges.foldl (levelStep g lv) level ∧
      ∀ e ∈ edges, lv e.source ≤ edges.foldl (levelStep g lv) level ∧
        (g.in_degree COMPATIBILITY_EDGE e.source ≠ 0 →
          1 + lv e.source ≤ edges.foldl (levelStep g lv) level) := by
  induction edges generalizing level with
  | nil => exact ⟨le_refl _, fun e he => absurd he List.not_mem_nil⟩
  | cons ie edges ih =>
    obtain ⟨hstart, hrest⟩ := ih (levelStep g lv level ie)
    obtain ⟨hlevel, hsource, hshared⟩ := levelStep_spec (g := g) lv level ie
    refine ⟨hlevel.trans hstart, fun e he => ?_⟩
    obtain rfl | he := List.mem_cons.mp he
    · exact ⟨hsource.trans hstart, fun hdegree => (hshared hdegree).trans hstart⟩
    · exact hrest e he

theorem le_levelOf {lv : Nat → Int} {u v : Nat} (h : Chained g u v) :
    lv u ≤ levelOf g lv v ∧ (g.in_degree COMPATIBILITY_EDGE u ≠ 0 → 1 + lv u ≤ levelOf g lv v) := by
  obtain ⟨e, he, ⟨rfl, rfl⟩, hsel⟩ := h
  exact (levelFold_spec lv _ 0).2 e (List.mem_filter.mpr ⟨he, decide_eq_true ⟨rfl, hsel⟩⟩)

theorem foldl_update_of_not_mem {l : List Nat} {f : (Nat → Int) → Nat → Int} {x : Nat}
    (hx : x ∉ l) (lv : Nat → Int) :
    l.foldl (fun lv sv => Function.update lv sv (f lv sv)) lv x = lv x := by
  induction l generalizing lv with
  | nil => rfl
  | cons sv l ih =>
    rw [List.mem_cons, not_or] at hx
    rw [List.foldl_cons, ih hx.2, Function.update_of_ne hx.1]

/-- Along a chained edge the level does not fall, and behind a shared operation it rises. -/
theorem cd_levels_le {Csorted_vertices : List Nat} (hnodup : Csorted_vertices.Nodup)
    (hsorted : Csorted_vertices.Pairwise fun a b => ¬ Chained g b a) {u v : Nat}
    (h : Chained g u v) (hu : u ∈ Csorted_vertices) (hv : v ∈ Csorted_vertices) (hne : u ≠ v) :
    cd_levels g Csorted_vertices u ≤ cd_levels g Csorted_vertices v ∧
      (g.in_degree COMPATIBILITY_EDGE u ≠ 0 →
        1 + cd_levels g Csorted_vertices u ≤ cd_levels g Csorted_vertices v) := by
  obtain ⟨pre, post, rfl⟩ := List.append_of_mem hv
  obtain ⟨hpre, hpost, hdisjoint⟩ := List.nodup_append.mp hnodup
  obtain ⟨hvpost, -⟩ := List.nodup_cons.mp hpost
  -- The source of the edge has been sorted before its target.
  have hupost : u ∉ post := by
    intro hupost
    have hpair := (List.pairwise_append.mp hsorted).2.1
    exact (List.pairwise_cons.mp hpair).1 u hupost h
  obtain ⟨lv, hlv⟩ : ∃ lv, lv =
    pre.foldl (fun lv sv => Function.update lv sv (levelOf g lv sv)) fun _ => 0 := ⟨_, rfl⟩
  have hsplit : ∀ x, x ∉ post → cd_levels g (pre ++ v :: post) x =
      Function.update lv v (levelOf g lv v) x := by
    intro x hx
    rw [cd_levels_eq, List.foldl_append, List.foldl_cons, foldl_update_of_not_mem hx, ← hlv]
  rw [hsplit u hupost, hsplit v hvpost, Function.update_of_ne hne, Function.update_self]
  exact le_levelOf h

theorem cd_levels_nonneg (Csorted_vertices : List Nat) (x : Nat) :
    0 ≤ cd_levels g Csorted_vertices x := by
  rw [cd_levels_eq]
  have hloop : ∀ (l : List Nat) (lv : Nat → Int), (∀ x, 0 ≤ lv x) →
      0 ≤ l.foldl (fun lv sv => Function.update lv sv (levelOf g lv sv)) lv x := by
    intro l
    induction l with
    | nil => exact fun lv hlv => hlv x
    | cons sv l ih =>
      intro lv hlv
      refine ih _ fun y => ?_
      show 0 ≤ Function.update lv sv (levelOf g lv sv) y
      by_cases hy : y = sv
      · rw [hy, Function.update_self]
        exact (levelFold_spec lv _ 0).1
      · rw [Function.update_of_ne hy]
        exact hlv y
  exact hloop _ _ fun _ => le_refl _

end Levels

/-! ## The removal of one loop -/

section Removal

variable {input : Input} {g : Graph} {removed : Finset (Nat × Nat)}

/-- The pairs without an edge are compatible ones, in both directions. -/
structure Removed (input : Input) (removed : Finset (Nat × Nat)) : Prop where
  symmetric : ∀ x y, (x, y) ∈ removed → (y, x) ∈ removed
  compatible : ∀ x y, (x, y) ∈ removed → Compatible input.graph x y

theorem WellFormed.not_both (hwf : WellFormed input) {x y : Nat} (hc : Chained input.graph x y) :
    ¬ Compatible input.graph x y := by
  rintro ⟨e, he, ⟨rfl, rfl⟩, hsel⟩
  obtain ⟨e', he', hpair, hsel'⟩ := hc
  obtain rfl := List.inj_on_of_nodup_map hwf.nodup he' he (by rw [hpair.1, hpair.2])
  obtain h | h := hwf.selector e' he <;> rw [selected, h] at hsel hsel'
  · exact absurd hsel (by decide)
  · exact absurd hsel' (by decide)

theorem Removed.chained_iff (h : Removed input removed) (hwf : WellFormed input) {x y : Nat} :
    Chained (prune input.graph removed) x y ↔ Chained input.graph x y := by
  rw [chained_prune]
  exact and_iff_left_of_imp fun hc hmem => hwf.not_both hc (h.compatible x y hmem)

theorem preferred_mem (g : Graph) (lv : Nat → Int) (rest : List Edge) (cand : Edge) :
    rest.foldl (fun cand e => if preferred g lv cand e then e else cand) cand ∈ cand :: rest := by
  induction rest generalizing cand with
  | nil => exact List.mem_singleton_self cand
  | cons e rest ih =>
    rw [List.foldl_cons]
    split
    · exact List.mem_cons_of_mem _ (ih e)
    · obtain h | h := List.mem_cons.mp (ih cand)
      · rw [h]
        exact List.mem_cons_self
      · exact List.mem_cons_of_mem _ (List.mem_cons_of_mem _ h)

/-- A compatible pair of the loop is removed in both directions. -/
theorem removeLoop_spec (hwf : WellFormed input) (h : Removed input removed) (lv : Nat → Int)
    {candidate_edges : List Edge} (hne : candidate_edges ≠ [])
    (hmem : ∀ e ∈ candidate_edges, e ∈ prune input.graph removed ∧
      selected COMPATIBILITY_EDGE e = true) :
    ∃ x y, Compatible (prune input.graph removed) x y ∧
      removeLoop (prune input.graph removed) lv candidate_edges =
        .ok (prune input.graph (insert (y, x) (insert (x, y) removed))) ∧
      Removed input (insert (y, x) (insert (x, y) removed)) := by
  cases candidate_edges with
  | nil => exact absurd rfl hne
  | cons cand rest =>
    obtain ⟨e, he⟩ : ∃ e, e = rest.foldl
      (fun cand e => if preferred (prune input.graph removed) lv cand e then e else cand) cand :=
      ⟨_, rfl⟩
    obtain ⟨hin, hsel⟩ := hmem e (he ▸ preferred_mem _ lv rest cand)
    have hcompat : Compatible (prune input.graph removed) e.source e.target :=
      ⟨e, hin, ⟨rfl, rfl⟩, hsel⟩
    obtain ⟨hcompat₀, hnot⟩ := compatible_prune.mp hcompat
    have hedge : e.source ≠ e.target := hwf.ne e ((mem_prune hsel).mp hin).1
    -- The edge in the other direction is still there.
    obtain ⟨e', he', ⟨hsrc, htgt⟩, hsel'⟩ :
        Compatible (prune input.graph (insert (e.source, e.target) removed)) e.target e.source := by
      rw [compatible_prune, Finset.mem_insert, not_or]
      exact ⟨hwf.symmetric _ _ hcompat₀, fun heq => hedge (Prod.mk.inj heq).2,
        fun hback => hnot (h.symmetric _ _ hback)⟩
    refine ⟨e.source, e.target, hcompat, ?_, ?_, ?_⟩
    · have hfind : (prune input.graph (insert (e.source, e.target) removed)).edge
          COMPATIBILITY_EDGE e.target e.source = some e' := by
        have hfind := edge_eq_some (by rw [pairs_prune]; exact hwf.nodup) he' hsel'
        rwa [hsrc, htgt] at hfind
      unfold removeLoop
      simp only [← he, unselect_prune, hfind, hsrc, htgt]
    · intro x y hxy
      simp only [Finset.mem_insert, Prod.mk.injEq] at hxy ⊢
      obtain ⟨rfl, rfl⟩ | ⟨rfl, rfl⟩ | hxy := hxy
      · exact Or.inr (Or.inl ⟨rfl, rfl⟩)
      · exact Or.inl ⟨rfl, rfl⟩
      · exact Or.inr (Or.inr (h.symmetric x y hxy))
    · intro x y hxy
      simp only [Finset.mem_insert, Prod.mk.injEq] at hxy
      obtain ⟨rfl, rfl⟩ | ⟨rfl, rfl⟩ | hxy := hxy
      · exact hwf.symmetric _ _ hcompat₀
      · exact hcompat₀
      · exact h.compatible x y hxy

/-- The compatible pairs of a graph. -/
def compatiblePairs (g : Graph) : Finset (Nat × Nat) :=
  ((g.filter (selected COMPATIBILITY_EDGE)).map fun e => (e.source, e.target)).toFinset

theorem mem_compatiblePairs {x y : Nat} : (x, y) ∈ compatiblePairs g ↔ Compatible g x y := by
  rw [compatiblePairs, List.mem_toFinset, List.mem_map]
  constructor
  · rintro ⟨e, he, hpair⟩
    obtain ⟨hmem, hsel⟩ := List.mem_filter.mp he
    obtain ⟨hsrc, htgt⟩ := Prod.mk.inj hpair
    exact ⟨e, hmem, ⟨hsrc, htgt⟩, hsel⟩
  · rintro ⟨e, hmem, ⟨rfl, rfl⟩, hsel⟩
    exact ⟨e, List.mem_filter.mpr ⟨hmem, hsel⟩, rfl⟩

theorem compatiblePairs_lt {removed' : Finset (Nat × Nat)} (hsub : removed ⊆ removed') {x y : Nat}
    (hxy : Compatible (prune g removed) x y) (hmem : (x, y) ∈ removed') :
    (compatiblePairs (prune g removed')).card < (compatiblePairs (prune g removed)).card := by
  refine Finset.card_lt_card (Finset.ssubset_iff_of_subset ?_ |>.mpr ⟨(x, y), ?_, ?_⟩)
  · rintro ⟨u, v⟩ huv
    rw [mem_compatiblePairs, compatible_prune] at huv ⊢
    exact ⟨huv.1, fun h => huv.2 (hsub h)⟩
  · exact mem_compatiblePairs.mpr hxy
  · rw [mem_compatiblePairs, compatible_prune]
    exact fun h => h.2 hmem

/-- A start without a level, or without a compatible operation, is on no loop. -/
theorem level_of_onLoop (hwf : WellFormed input) (h : Removed input removed) {s : Nat}
    (hs : OnLoop (prune input.graph removed) s) :
    cd_levels input.graph input.Csorted_vertices s ≠ 0 ∧
      (prune input.graph removed).in_degree COMPATIBILITY_EDGE s ≠ 0 := by
  have hlevel : ∀ {u v}, Chained input.graph u v →
      cd_levels input.graph input.Csorted_vertices u ≤
        cd_levels input.graph input.Csorted_vertices v ∧
      (input.graph.in_degree COMPATIBILITY_EDGE u ≠ 0 →
        1 + cd_levels input.graph input.Csorted_vertices u ≤
          cd_levels input.graph input.Csorted_vertices v) := by
    intro u v huv
    obtain ⟨hu, hv⟩ := hwf.sorted_mem u v huv
    refine cd_levels_le hwf.sorted_nodup hwf.sorted huv hu hv ?_
    rintro rfl
    exact hwf.acyclic u (.single huv)
  constructor
  · -- The way to the start comes from an operation that is shared.
    obtain ⟨s', t, hst, hts⟩ : ∃ s', Turn (Chained (prune input.graph removed))
        (Compatible (prune input.graph removed)) s' s := by
      cases hs with
      | single hturn => exact ⟨_, hturn⟩
      | tail _ hturn => exact ⟨_, hturn⟩
    have hdegree : input.graph.in_degree COMPATIBILITY_EDGE t ≠ 0 :=
      in_degree_ne_zero.mpr ⟨s', (compatible_prune.mp hst).1⟩
    have hle : ∀ {v}, TransGen (Chained (prune input.graph removed)) t v →
        1 + cd_levels input.graph input.Csorted_vertices t ≤
          cd_levels input.graph input.Csorted_vertices v := by
      intro v htv
      induction htv with
      | single hstep => exact (hlevel ((h.chained_iff hwf).mp hstep)).2 hdegree
      | tail _ hstep ih => exact ih.trans (hlevel ((h.chained_iff hwf).mp hstep)).1
    have hnonneg := cd_levels_nonneg (g := input.graph) input.Csorted_vertices t
    have := hle hts
    omega
  · obtain ⟨t, hst⟩ : ∃ t, Compatible (prune input.graph removed) s t := by
      obtain ⟨s', ⟨t, hst, -⟩, -⟩ := (Relation.TransGen.head'_iff).mp hs
      exact ⟨t, hst⟩
    obtain ⟨hst₀, hnot⟩ := compatible_prune.mp hst
    exact in_degree_ne_zero.mpr ⟨t, compatible_prune.mpr
      ⟨hwf.symmetric _ _ hst₀, fun hback => hnot (h.symmetric _ _ hback)⟩⟩

end Removal

/-! ## The phase -/

section Phase

variable {input : Input} {st st' : State}

/-- What holds in each state: only compatible pairs have been removed, a loop that has been found
is one of the graph, and without a loop in the round all candidates before are excluded. -/
structure Inv (input : Input) (st : State) : Prop where
  pruned : ∃ removed, st.graph = prune input.graph removed ∧ Removed input removed
  found : ∀ es, st.candidate_edges = some es → (st.rest ≠ [] ∧ st.restart = true) ∧ es ≠ [] ∧
    ∀ e ∈ es, e ∈ st.graph ∧ selected COMPATIBILITY_EDGE e = true
  excluded : st.restart = false →
    ∀ c ∈ input.all_candidate_vertices, c ∈ st.rest ∨ c ∈ st.no_cycles

/-- The search that is next, when its start is not excluded, finds a loop when there is one. -/
def FindsLoop (input : Input) (st : State) : Prop :=
  ∀ start rest, st.rest = start :: rest → st.candidate_edges = none → start ∉ st.no_cycles →
    OnLoop st.graph start →
      ∀ es, false_loop_search st.graph input.num_vertices start st.k ≠ .ok (false, es)

/-- No excluded start is on a loop. -/
def Sound (st : State) : Prop := ∀ c ∈ st.no_cycles, ¬ OnLoop st.graph c

/-- What a step leaves smaller: the compatible pairs, or else what is left of the round. -/
def remaining (st : State) : Nat ×ₗ Nat ×ₗ Nat ×ₗ Nat :=
  toLex ((compatiblePairs st.graph).card, toLex (if st.candidate_edges.isSome then 0 else 1,
    toLex (if st.restart then 1 else 0, st.rest.length)))

/-- A start is excluded: a loop is not there, or is not found. -/
structure Excludes (input : Input) (st st' : State) (c : Nat) : Prop where
  graph : st'.graph = st.graph
  new : c ∉ st.no_cycles
  next : st.candidate_edges = none ∧ ∃ rest, st.rest = c :: rest
  missing : ¬ OnLoop st.graph c ∨
    ∃ es, false_loop_search st.graph input.num_vertices c st.k = .ok (false, es)

/-- What a step does: it only removes, and excludes no start but the next one. -/
structure Steps (input : Input) (st st' : State) : Prop where
  inv : Inv input st'
  less : remaining st' < remaining st
  compatible : ∀ x y, Compatible st'.graph x y → Compatible st.graph x y
  excluded : ∀ c ∈ st'.no_cycles, c ∈ st.no_cycles ∨ Excludes input st st' c
  excludes : ∀ c, (st.candidate_edges = none ∧ ∃ rest, st.rest = c :: rest) → c ∉ st.no_cycles →
    OnLoop st.graph c →
      (∃ es, false_loop_search st.graph input.num_vertices c st.k = .ok (false, es)) →
        st'.graph = st.graph ∧ c ∈ st'.no_cycles

theorem inv_init : Inv input (init input) where
  pruned := ⟨∅, prune_empty.symm, fun _ _ h => absurd h (Finset.notMem_empty _),
    fun _ _ h => absurd h (Finset.notMem_empty _)⟩
  found := by rintro es ⟨⟩
  excluded := fun _ c hc => Or.inl hc

theorem target_lt (hwf : WellFormed input) (removed : Finset (Nat × Nat)) :
    ∀ e ∈ prune input.graph removed, e.target < input.num_vertices := by
  intro e he
  obtain ⟨e', he', rfl⟩ := List.mem_map.mp he
  split <;> exact hwf.lt e' he'

/-- The round ends, and another one begins. -/
theorem steps_round (hinv : Inv input st) (hrest : st.rest = []) (hrestart : st.restart = true) :
    Steps input st
      { st with k := st.k + 1, restart := false, rest := input.all_candidate_vertices } := by
  have hnone : st.candidate_edges = none := by
    cases hcand : st.candidate_edges with
    | none => rfl
    | some es => exact absurd hrest (hinv.found es hcand).1.1
  refine ⟨⟨hinv.pruned, fun es hes => ?_, fun _ c hc => Or.inl hc⟩, ?_, fun _ _ h => h,
    fun c hc => Or.inl hc, fun c hnext => ?_⟩
  · rw [hnone] at hes
    cases hes
  · unfold remaining
    rw [hrestart]
    exact Prod.Lex.right _ (Prod.Lex.right _ (Prod.Lex.left _ _ Nat.zero_lt_one))
  · obtain ⟨-, rest, hcons⟩ := hnext
    rw [hrest] at hcons
    cases hcons

/-- The next candidate is passed over or excluded. -/
theorem steps_pass {start : Nat} {rest : List Nat} {no_cycles : Finset Nat} (hinv : Inv input st)
    (hrest : st.rest = start :: rest) (hnone : st.candidate_edges = none)
    (hkept : st.no_cycles ⊆ no_cycles) (hstart : start ∈ no_cycles)
    (hnew : ∀ c ∈ no_cycles, c ∈ st.no_cycles ∨ (c = start ∧ c ∉ st.no_cycles ∧
      (¬ OnLoop st.graph c ∨
        ∃ es, false_loop_search st.graph input.num_vertices c st.k = .ok (false, es)))) :
    Steps input st { st with no_cycles := no_cycles, rest := rest } := by
  refine ⟨⟨hinv.pruned, fun es hes => ?_, fun hrestart c hc => ?_⟩, ?_, fun _ _ h => h,
    fun c hc => ?_, fun c hnext hnot _ _ => ⟨rfl, ?_⟩⟩
  · rw [hnone] at hes
    cases hes
  · obtain h | h := hinv.excluded hrestart c hc
    · rw [hrest] at h
      obtain rfl | h := List.mem_cons.mp h
      · exact Or.inr hstart
      · exact Or.inl h
    · exact Or.inr (hkept h)
  · have hlen : st.rest.length = rest.length + 1 := by rw [hrest, List.length_cons]
    unfold remaining
    rw [hlen]
    exact Prod.Lex.right _ (Prod.Lex.right _ (Prod.Lex.right _ (Nat.lt_succ_self _)))
  · obtain h | ⟨rfl, hnot, hcase⟩ := hnew c hc
    · exact Or.inl h
    · exact Or.inr ⟨rfl, hnot, ⟨hnone, rest, hrest⟩, hcase⟩
  · obtain ⟨-, rest', hcons⟩ := hnext
    rw [hrest] at hcons
    cases hcons
    exact hstart

/-- A loop is found. -/
theorem steps_found {start : Nat} {rest : List Nat} {es : List Edge} (hinv : Inv input st)
    (hrest : st.rest = start :: rest) (hnone : st.candidate_edges = none)
    (hsearch : false_loop_search st.graph input.num_vertices start st.k = .ok (true, es))
    (hes : es ≠ [] ∧ ∀ e ∈ es, e ∈ st.graph ∧ selected COMPATIBILITY_EDGE e = true) :
    Steps input st { st with restart := true, candidate_edges := some es } := by
  refine ⟨⟨hinv.pruned, ?_, fun h => Bool.noConfusion h⟩, ?_, fun _ _ h => h,
    fun c hc => Or.inl hc, fun c hnext _ _ hmissed => ?_⟩
  · rintro es' ⟨⟩
    exact ⟨⟨by rw [hrest]; exact List.cons_ne_nil _ _, rfl⟩, hes⟩
  · unfold remaining
    rw [hnone]
    exact Prod.Lex.right _ (Prod.Lex.left _ _ Nat.zero_lt_one)
  · -- The search does not come back empty.
    obtain ⟨-, rest', hcons⟩ := hnext
    obtain ⟨es', hmissed⟩ := hmissed
    rw [hrest] at hcons
    cases hcons
    rw [hsearch] at hmissed
    cases hmissed

/-- One edge of a loop is removed in both directions. -/
theorem steps_remove {graph : Graph} {es : List Edge} {removed removed' : Finset (Nat × Nat)}
    {x y : Nat} (rest : List Nat) (candidate_edges : Option (List Edge)) (hinv : Inv input st)
    (hsome : st.candidate_edges = some es) (hgraph : st.graph = prune input.graph removed)
    (hsub : removed ⊆ removed') (hxy : Compatible st.graph x y) (hmem : (x, y) ∈ removed')
    (hgraph' : graph = prune input.graph removed') (hremoved : Removed input removed')
    (hfound : ∀ es, candidate_edges = some es → rest ≠ [] ∧ es ≠ [] ∧
      ∀ e ∈ es, e ∈ graph ∧ selected COMPATIBILITY_EDGE e = true) :
    Steps input st { st with graph, rest, candidate_edges } := by
  have hrestart := (hinv.found es hsome).1.2
  refine ⟨⟨⟨removed', hgraph', hremoved⟩, fun es hes => ?_, fun h => ?_⟩, ?_, fun u v h => ?_,
    fun c hc => Or.inl hc, fun c hnext => ?_⟩
  · obtain ⟨hrest, hes⟩ := hfound es hes
    exact ⟨⟨hrest, hrestart⟩, hes⟩
  · rw [hrestart] at h
    cases h
  · have hcard := compatiblePairs_lt hsub (hgraph ▸ hxy) hmem
    rw [← hgraph, ← hgraph'] at hcard
    exact Prod.Lex.left _ _ hcard
  · rw [hgraph', compatible_prune] at h
    rw [hgraph, compatible_prune]
    exact ⟨h.1, fun hr => h.2 (hsub hr)⟩
  · rw [hsome] at hnext
    cases hnext.1

/-- The round without a loop ends the phase, and each step before it leaves less to do. -/
theorem step_spec (hwf : WellFormed input) (hinv : Inv input st) :
    (step input st = .ok none ∧ st.rest = [] ∧ st.restart = false) ∨
      ∃ st', step input st = .ok (some st') ∧ Steps input st st' := by
  obtain ⟨removed, hgraph, hremoved⟩ := hinv.pruned
  have hlt : ∀ e ∈ st.graph, e.target < input.num_vertices := hgraph ▸ target_lt hwf removed
  cases hrest : st.rest with
  | nil =>
    cases hrestart : st.restart with
    | false =>
      refine Or.inl ⟨?_, rfl, rfl⟩
      unfold step
      simp only [hrest, hrestart, Bool.false_eq_true, if_false]
    | true =>
      refine Or.inr ⟨_, ?_, steps_round hinv hrest hrestart⟩
      unfold step
      simp only [hrest, hrestart, if_true]
  | cons start rest =>
    right
    cases hcand : st.candidate_edges with
    | some candidate_edges =>
      obtain ⟨-, hne, hmem⟩ := hinv.found candidate_edges hcand
      rw [hgraph] at hmem
      obtain ⟨x, y, hxy, hremove, hremoved'⟩ := removeLoop_spec hwf hremoved
        (cd_levels input.graph input.Csorted_vertices) hne hmem
      rw [← hgraph] at hxy hremove
      have hstep := fun rest candidate_edges => steps_remove rest candidate_edges hinv hcand hgraph
        ((Finset.subset_insert _ _).trans (Finset.subset_insert _ _)) hxy
        (Finset.mem_insert_of_mem (Finset.mem_insert_self _ _)) rfl hremoved'
      -- Another loop of the same start is searched for in the graph that is left.
      obtain ⟨⟨found, es⟩, hsearch, -, hsome⟩ := false_loop_search_spec st.k start
        (target_lt hwf (insert (y, x) (insert (x, y) removed)))
      cases found with
      | true =>
        refine ⟨_, ?_, hstep st.rest (some es) ?_⟩
        · unfold step
          simp only [hrest, hcand, hremove, Except.bind, hsearch, Except.map, if_true]
        · rintro es' ⟨⟩
          exact ⟨by rw [hrest]; exact List.cons_ne_nil _ _, hsome rfl⟩
      | false =>
        refine ⟨_, ?_, hstep rest none ?_⟩
        · unfold step
          simp only [hrest, hcand, hremove, Except.bind, hsearch, Except.map, Bool.false_eq_true,
            if_false]
        · rintro es' ⟨⟩
    | none =>
      by_cases hstart : start ∈ st.no_cycles
      · refine ⟨_, ?_, steps_pass hinv hrest hcand (Finset.Subset.refl _) hstart
          fun c hc => Or.inl hc⟩
        unfold step
        simp only [hrest, hcand, if_pos hstart]
      have hexclude : (¬ OnLoop st.graph start ∨
          ∃ es, false_loop_search st.graph input.num_vertices start st.k = .ok (false, es)) →
          Steps input st { st with no_cycles := insert start st.no_cycles, rest := rest } := by
        intro hmissing
        refine steps_pass hinv hrest hcand (Finset.subset_insert _ _) (Finset.mem_insert_self _ _)
          fun c hc => ?_
        obtain rfl | hc := Finset.mem_insert.mp hc
        · exact Or.inr ⟨rfl, hstart, hmissing⟩
        · exact Or.inl hc
      by_cases hlevel : cd_levels input.graph input.Csorted_vertices start ≠ 0 ∧
          st.graph.in_degree COMPATIBILITY_EDGE start ≠ 0
      · obtain ⟨⟨found, es⟩, hsearch, -, hsome⟩ := false_loop_search_spec st.k start hlt
        cases found with
        | true =>
          refine ⟨_, ?_, steps_found hinv hrest hcand hsearch (hsome rfl)⟩
          unfold step
          simp only [hrest, hcand, if_neg hstart, if_pos hlevel, hsearch, Except.map, if_true]
        | false =>
          refine ⟨_, ?_, hexclude (Or.inr ⟨es, hsearch⟩)⟩
          unfold step
          simp only [hrest, hcand, if_neg hstart, if_pos hlevel, hsearch, Except.map,
            Bool.false_eq_true, if_false]
      · refine ⟨_, ?_, hexclude (Or.inl fun hloop => hlevel ?_)⟩
        · unfold step
          simp only [hrest, hcand, if_neg hstart, if_neg hlevel]
        · rw [hgraph] at hloop ⊢
          exact level_of_onLoop hwf hremoved hloop

theorem Reachable.inv (hwf : WellFormed input) (h : Reachable input st) : Inv input st := by
  induction h with
  | init => exact inv_init
  | step _ hstep ih =>
    obtain ⟨hend, -⟩ | ⟨st'', hnext, hsteps⟩ := step_spec hwf ih
    · rw [hend] at hstep
      cases hstep
    · rw [hnext] at hstep
      cases hstep
      exact hsteps.inv

theorem steps_of_reachable (hwf : WellFormed input) (h : Reachable input st)
    (hstep : step input st = .ok (some st')) : Steps input st st' := by
  obtain ⟨hend, -⟩ | ⟨st'', hnext, hsteps⟩ := step_spec hwf (h.inv hwf)
  · rw [hend] at hstep
    cases hstep
  · rw [hnext] at hstep
    cases hstep
    exact hsteps

theorem run_ends (hwf : WellFormed input) {st : State} (h : Reachable input st) :
    ∃ fuel st', run input fuel st = .ok st' ∧ Reachable input st' ∧ st'.rest = [] ∧
      st'.restart = false := by
  obtain ⟨hend, hrest, hrestart⟩ | ⟨st', hnext, hsteps⟩ := step_spec hwf (h.inv hwf)
  · refine ⟨1, st, ?_, h, hrest, hrestart⟩
    rw [run, hend]
    rfl
  · obtain ⟨fuel, st'', hrun, hst''⟩ := run_ends hwf (h.step hnext)
    refine ⟨fuel + 1, st'', ?_, hst''⟩
    rw [run, hnext]
    exact hrun
termination_by remaining st
decreasing_by exact hsteps.less

theorem OnLoop.mono {g g' : Graph} {s : Nat} (hchained : ∀ x y, Chained g x y → Chained g' x y)
    (hcompat : ∀ x y, Compatible g x y → Compatible g' x y) (h : OnLoop g s) : OnLoop g' s := by
  refine TransGen.mono (fun x y hturn => ?_) _ _ h
  obtain ⟨t, hxt, hty⟩ := hturn
  exact ⟨t, hcompat x t hxt, TransGen.mono hchained _ _ hty⟩

theorem Inv.chained_iff (hwf : WellFormed input) (h : Inv input st) {x y : Nat} :
    Chained st.graph x y ↔ Chained input.graph x y := by
  obtain ⟨removed, hgraph, hremoved⟩ := h.pruned
  rw [hgraph]
  exact hremoved.chained_iff hwf

/-- No loop is missed exactly when no start on a loop is excluded. -/
theorem findsLoop_iff_sound (hwf : WellFormed input) :
    (∀ st, Reachable input st → FindsLoop input st) ↔
      ∀ st, Reachable input st → Sound st := by
  constructor
  · intro hfinds st h
    induction h with
    | init => exact fun c hc => absurd hc (Finset.notMem_empty _)
    | step hreach hstep ih =>
      have hsteps := steps_of_reachable hwf hreach hstep
      intro c hc hloop
      obtain hold | ⟨hgraph, hnew, ⟨hnone, rest, hrest⟩, hmissing⟩ := hsteps.excluded c hc
      · refine ih c hold (hloop.mono (fun x y hxy => ?_) hsteps.compatible)
        exact ((hreach.inv hwf).chained_iff hwf).mpr ((hsteps.inv.chained_iff hwf).mp hxy)
      · rw [hgraph] at hloop
        obtain hnot | ⟨es, hsearch⟩ := hmissing
        · exact hnot hloop
        · exact hfinds _ hreach c rest hrest hnone hnew hloop es hsearch
  · intro hsound st h start rest hrest hnone hnew hloop es hsearch
    obtain ⟨-, hnil, -⟩ | ⟨st', hnext, hsteps⟩ := step_spec hwf (h.inv hwf)
    · rw [hrest] at hnil
      cases hnil
    · obtain ⟨hgraph, hmem⟩ :=
        hsteps.excludes start ⟨hnone, rest, hrest⟩ hnew hloop ⟨es, hsearch⟩
      exact hsound st' (h.step hnext) start hmem (hgraph ▸ hloop)

/-- Once every candidate is excluded, what is left has no cycles over shared operations. -/
theorem Inv.acyclic (hwf : WellFormed input) (h : Inv input st) (hrest : st.rest = [])
    (hrestart : st.restart = false) (hsound : Sound st) {β : Type} (c : Nat → β)
    (hc : ∀ x y, c x = c y → x = y ∨ Compatible st.graph x y) (a : β) :
    ¬ TransGen (Contracted (Chained st.graph) c) a a := by
  intro hcycle
  have hacyclic : ∀ x, ¬ TransGen (Chained st.graph) x x := fun x hx =>
    hwf.acyclic x (TransGen.mono (fun _ _ hxy => (h.chained_iff hwf).mp hxy) _ _ hx)
  obtain ⟨s, hs⟩ := exists_turns_of_cycle hacyclic hc hcycle
  obtain ⟨s', ⟨t, hst, -⟩, -⟩ := (Relation.TransGen.head'_iff).mp hs
  obtain ⟨removed, hgraph, -⟩ := h.pruned
  have hmem : s ∈ input.all_candidate_vertices :=
    hwf.candidates s t (compatible_prune.mp (hgraph ▸ hst)).1
  obtain hin | hin := h.excluded hrestart s hmem
  · rw [hrest] at hin
    cases hin
  · exact hsound s hin hs

/-- Three chains whose ends can be shared in a ring. -/
def chainRing : Input where
  graph := [⟨1, 2, CD_EDGE, 1⟩, ⟨3, 4, CD_EDGE, 1⟩, ⟨5, 0, CD_EDGE, 1⟩,
    ⟨0, 1, COMPATIBILITY_EDGE, 1⟩, ⟨1, 0, COMPATIBILITY_EDGE, 1⟩, ⟨2, 3, COMPATIBILITY_EDGE, 1⟩,
    ⟨3, 2, COMPATIBILITY_EDGE, 1⟩, ⟨4, 5, COMPATIBILITY_EDGE, 1⟩, ⟨5, 4, COMPATIBILITY_EDGE, 1⟩]
  num_vertices := 6
  Csorted_vertices := [1, 3, 5, 2, 4, 0]
  all_candidate_vertices := [0, 1, 2, 3, 4, 5]

theorem chainRing_wellFormed : WellFormed chainRing where
  selector := by decide
  nodup := by decide
  lt := by decide
  ne := by decide
  symmetric := by
    have hswap : ∀ p ∈ compatiblePairs chainRing.graph,
        p.swap ∈ compatiblePairs chainRing.graph := by decide
    intro x y hxy
    exact mem_compatiblePairs.mp (hswap (x, y) (mem_compatiblePairs.mpr hxy))
  acyclic := by
    -- Every chain leads from an odd operation to an even one.
    have hstep : ∀ e ∈ chainRing.graph, selected CD_EDGE e = true →
        e.source % 2 = 1 ∧ e.target % 2 = 0 := by decide
    have hend : ∀ {x y}, TransGen (Chained chainRing.graph) x y → x % 2 = 1 ∧ y % 2 = 0 := by
      intro x y hxy
      induction hxy with
      | single h =>
        obtain ⟨e, he, ⟨rfl, rfl⟩, hsel⟩ := h
        exact hstep e he hsel
      | tail _ h ih =>
        obtain ⟨e, he, ⟨rfl, rfl⟩, hsel⟩ := h
        exact ⟨ih.1, (hstep e he hsel).2⟩
    intro x hx
    obtain ⟨hodd, heven⟩ := hend hx
    rw [heven] at hodd
    cases hodd
  sorted_nodup := by decide
  sorted_mem := by
    have hmem : ∀ e ∈ chainRing.graph, selected CD_EDGE e = true →
        e.source ∈ chainRing.Csorted_vertices ∧ e.target ∈ chainRing.Csorted_vertices := by decide
    rintro x y ⟨e, he, ⟨rfl, rfl⟩, hsel⟩
    exact hmem e he hsel
  sorted := by
    show List.Pairwise (fun a b => ¬ ∃ e ∈ chainRing.graph, _) chainRing.Csorted_vertices
    decide
  candidates := by
    have hmem : ∀ p ∈ compatiblePairs chainRing.graph,
        p.1 ∈ chainRing.all_candidate_vertices := by decide
    intro x y hxy
    exact hmem (x, y) (mem_compatiblePairs.mpr hxy)

end Phase

end FalseLoop
end HLS
end Bambu
