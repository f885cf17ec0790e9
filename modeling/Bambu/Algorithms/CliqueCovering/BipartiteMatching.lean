/-
  Bambu.Algorithms.CliqueCovering.BipartiteMatching

  `bipartite_matching_clique_covering`: columns are filled one sub-partition after the other, each
  by a square assignment problem.

  With as many columns as there are vertices no assignment fails: there are as many empty columns
  as vertices without one.
-/

import Bambu.Math.Assignment
import Bambu.Math.Numbering
import Bambu.Utility.Common
import Mathlib.Data.Finset.Sort
import Mathlib.Data.Finset.Option

namespace Bambu
namespace CliqueCovering
namespace BipartiteMatching

open Bambu.Math

abbrev C_vertex := Nat

/-! ## The interference graph -/

/-- `interferenceGraphClass`: pairs with the smaller vertex first. -/
abbrev InterferenceGraph := Finset (C_vertex × C_vertex)

namespace InterferenceGraph

def ensure_order (i j : C_vertex) : C_vertex × C_vertex := if i > j then (j, i) else (i, j)

def add_edge (graph : InterferenceGraph) (i j : C_vertex) : InterferenceGraph :=
  insert (ensure_order i j) graph

def test (graph : InterferenceGraph) (i j : C_vertex) : Bool := ensure_order i j ∈ graph

/-- The two loops over the vertices of one sub-partition. -/
def addPairs : List C_vertex → InterferenceGraph → InterferenceGraph
  | [], graph => graph
  | k :: rest, graph =>
    addPairs rest (rest.foldl (fun graph k_inner => add_edge graph k k_inner) graph)

def build (partitions : List (Finset C_vertex)) : InterferenceGraph :=
  partitions.foldl (fun graph P => addPairs (P.sort (· ≤ ·)) graph) ∅

end InterferenceGraph

/-! ## The assignment of one sub-partition -/

/-- What does not change between the sub-partitions. -/
structure Problem where
  solve : List Arc → Option (Nat → Nat)
  sharing_cost : C_vertex → Finset C_vertex → Nat
  interferenceGraph : InterferenceGraph

structure Columns where
  cliques : List (Finset C_vertex)
  already_assigned : C_vertex → Option Nat

namespace Columns

def column (cols : Columns) (y : Nat) : Finset C_vertex := cols.cliques[y]?.getD ∅

end Columns

variable (pb : Problem)

/-- No vertex of the column interferes. -/
def compatible (cols : Columns) (v : C_vertex) (y : Nat) : Prop :=
  ∀ cv ∈ cols.column y, pb.interferenceGraph.test v cv = false

instance (cols : Columns) (v : C_vertex) (y : Nat) : Decidable (compatible pb cols v y) :=
  inferInstanceAs (Decidable (∀ cv ∈ cols.column y, pb.interferenceGraph.test v cv = false))

/-- The arcs of the vertices that have a column already. -/
def pinnedArcs (cols : Columns) (not_assignedN : Nat) (assigned : List C_vertex) : List Arc :=
  assigned.zipIdx.map fun (pver, j) =>
    ⟨not_assignedN + j, (cols.already_assigned pver).getD 0, 1⟩

/-- The arcs of one new vertex. -/
def vertexArcs (cols : Columns) (num_cols : Nat) (column_already_assigned : Finset Nat) (i : Nat)
    (v : C_vertex) : List Arc :=
  ((List.range num_cols).filter fun y => y ∉ column_already_assigned ∧ compatible pb cols v y).map
    fun y => ⟨i, y, pb.sharing_cost v (cols.column y)⟩

/-- The arcs of one node without a vertex. -/
def paddingArcs (num_cols : Nat) (column_already_assigned : Finset Nat) (i : Nat) : List Arc :=
  ((List.range num_cols).filter fun y => y ∉ column_already_assigned).map fun y => ⟨i, y, 1⟩

/-- The loop over `i`, from `i` on for `count` turns: the arcs, unless a vertex has none. -/
def addArcs (cols : Columns) (num_cols : Nat) (column_already_assigned : Finset Nat) :
    Nat → Nat → List C_vertex → List Arc → Option (List Arc)
  | 0, _, _, arcs => some arcs
  | count + 1, i, v :: rest, arcs =>
    match vertexArcs pb cols num_cols column_already_assigned i v with
    | [] => none
    | new => addArcs cols num_cols column_already_assigned count (i + 1) rest (arcs ++ new)
  | count + 1, i, [], arcs =>
    addArcs cols num_cols column_already_assigned count (i + 1) []
      (arcs ++ paddingArcs num_cols column_already_assigned i)

/-- The vertices are put into the columns of their mates. -/
def place (mate : Nat → Nat) : Nat → List C_vertex → Columns → Columns
  | _, [], cols => cols
  | i, v :: rest, cols => place mate (i + 1) rest
    { cliques := cols.cliques.modify (mate i) (insert v)
      already_assigned := Function.update cols.already_assigned v (some (mate i)) }

/-- The turn of one sub-partition.  Without a solution everything is restarted. -/
def assignPartition (num_cols : Nat) (cols : Columns) (p : Finset C_vertex) : Option Columns :=
  let not_assigned := (p.filter fun pver => cols.already_assigned pver = none).sort (· ≤ ·)
  let assigned := (p.filter fun pver => cols.already_assigned pver ≠ none).sort (· ≤ ·)
  let column_already_assigned :=
    (assigned.filterMap fun pver => cols.already_assigned pver).toFinset
  if not_assigned = [] then some cols
  else
    (addArcs pb cols num_cols column_already_assigned num_cols 0 not_assigned
      (pinnedArcs cols not_assigned.length assigned)).bind fun arcs =>
        (pb.solve arcs).map fun mate => place mate 0 not_assigned cols

/-- The loop that starts over with one more column, with a bound on its turns. -/
def attempts (partitionsSorted : List (Finset C_vertex)) (max_num_cols : Nat) :
    Nat → Nat → List (Finset C_vertex) → Except Error (List (Finset C_vertex))
  | 0, _, _ => .error .outOfFuel
  | fuel + 1, num_cols, cliques =>
    match partitionsSorted.foldlM (assignPartition pb num_cols) ⟨cliques, fun _ => none⟩ with
    | some cols => .ok cols.cliques
    | none => do
      throwAssert (max_num_cols = 0 ∨ max_num_cols > num_cols)
        "Clique covering does not have a solution"
      throwAssert (max_num_cols = 0 ∨ max_num_cols ≥ num_cols + 1)
        "Module binding does not have a solution"
      attempts partitionsSorted max_num_cols fuel (num_cols + 1)
        ((cliques ++ [∅]).map fun _ => ∅)

/-! ## The class -/

variable {vertex_type : Type} [DecidableEq vertex_type]

structure State (vertex_type : Type) where
  cliques : List (Finset C_vertex)
  v2uv : vertex_type → Option C_vertex
  uv2v : C_vertex → Option vertex_type
  vindex : C_vertex
  num_cols : Nat
  max_num_cols : Nat
  partitions : List (Nat × Finset C_vertex)

namespace State

def init : State vertex_type where
  cliques := []
  v2uv := fun _ => none
  uv2v := fun _ => none
  vindex := 0
  num_cols := 0
  max_num_cols := 0
  partitions := []

def add_vertex (element : vertex_type) (st : State vertex_type) :
    Except Error (State vertex_type) := do
  throwAssert (st.v2uv element = none) "vertex already added"
  .ok { st with
    v2uv := Function.update st.v2uv element (some st.vindex)
    vindex := st.vindex + 1
    uv2v := Function.update st.uv2v st.vindex (some element) }

/-- `partitions[id].insert(C_v)`. -/
def insertPartition (id : Nat) (C_v : C_vertex) :
    List (Nat × Finset C_vertex) → List (Nat × Finset C_vertex)
  | [] => [(id, {C_v})]
  | (id', P) :: rest =>
    if id < id' then (id, {C_v}) :: (id', P) :: rest
    else if id = id' then (id', insert C_v P) :: rest
    else (id', P) :: insertPartition id C_v rest

def partition (st : State vertex_type) (id : Nat) : Finset C_vertex :=
  (st.partitions.lookup id).getD ∅

def add_subpartitions (id : Nat) (v : vertex_type) (st : State vertex_type) :
    Except Error (State vertex_type) :=
  match st.v2uv v with
  | none => .error (.assertion "vertex not added")
  | some C_v =>
    let st := { st with partitions := insertPartition id C_v st.partitions }
    .ok { st with num_cols := max (st.partition id).card st.num_cols }

def min_resources (n_resources : Nat) (st : State vertex_type) : State vertex_type :=
  { st with num_cols := max st.num_cols n_resources }

def max_resources (n_resources : Nat) (st : State vertex_type) : State vertex_type :=
  { st with max_num_cols := max st.max_num_cols n_resources }

/-- `sort` is the order of the sub-partitions by size, where that of equal sizes is not specified.
The last vertex number bounds the restarts. -/
def exec (solve : List Arc → Option (Nat → Nat))
    (sort : List (Finset C_vertex) → List (Finset C_vertex))
    (sharing_cost : C_vertex → Finset C_vertex → (C_vertex → Option vertex_type) → Nat)
    (st : State vertex_type) : Except Error (State vertex_type) := do
  let partitionsSorted := sort (st.partitions.map (·.2))
  let pb : Problem :=
    { solve := solve
      sharing_cost := fun v clique => sharing_cost v clique st.uv2v
      interferenceGraph := InterferenceGraph.build partitionsSorted }
  let cliques ← attempts pb partitionsSorted st.max_num_cols (st.vindex + 1) st.num_cols
    (st.cliques ++ List.replicate st.num_cols ∅)
  .ok { st with cliques := cliques.filter fun clique => clique ≠ ∅ }

def num_vertices (st : State vertex_type) : Nat := st.cliques.length

def get_clique (st : State vertex_type) (i : Nat) : Except Error (Finset vertex_type) :=
  match st.cliques[i]? with
  | none => .error (.unreachable "index")
  | some cur_clique => do
    throwAssert (∀ v ∈ cur_clique, st.uv2v v ≠ none) "vertex not added"
    .ok (cur_clique.biUnion fun v => (st.uv2v v).toFinset)

end State

/-- A call before `exec`. -/
inductive Call (vertex_type : Type) where
  | add_vertex (element : vertex_type)
  | add_edge
  | add_subpartitions (id : Nat) (v : vertex_type)
  | suggest_min_resources (n_resources : Nat)
  | min_resources (n_resources : Nat)
  | suggest_max_resources (n_resources : Nat)
  | max_resources (n_resources : Nat)

/-- Edges and a suggested maximum are ignored. -/
def Call.run (st : State vertex_type) : Call vertex_type → Except Error (State vertex_type)
  | add_vertex element => st.add_vertex element
  | add_edge => .ok st
  | add_subpartitions id v => st.add_subpartitions id v
  | suggest_min_resources n_resources | min_resources n_resources =>
    .ok (st.min_resources n_resources)
  | suggest_max_resources _ => .ok st
  | max_resources n_resources => .ok (st.max_resources n_resources)

/-! ## Interference -/

namespace InterferenceGraph

theorem ensure_order_eq_iff {i j v w : Nat} :
    ensure_order v w = ensure_order i j ↔ (v = i ∧ w = j) ∨ (v = j ∧ w = i) := by
  unfold ensure_order
  split <;> split <;> grind

theorem test_add_edge {graph : InterferenceGraph} {i j v w : C_vertex} :
    (graph.add_edge i j).test v w = true ↔
      ((v = i ∧ w = j) ∨ (v = j ∧ w = i)) ∨ graph.test v w = true := by
  simp only [test, add_edge, Finset.mem_insert, decide_eq_true_eq, ensure_order_eq_iff]

theorem test_addPairs {l : List C_vertex} (hl : l.Nodup) (graph : InterferenceGraph)
    {v w : C_vertex} : (addPairs l graph).test v w = true ↔
      (v ∈ l ∧ w ∈ l ∧ v ≠ w) ∨ graph.test v w = true := by
  have hinner : ∀ (k : C_vertex) (rest : List C_vertex) (graph : InterferenceGraph),
      (rest.foldl (fun graph k_inner => add_edge graph k k_inner) graph).test v w = true ↔
        ((v = k ∧ w ∈ rest) ∨ (w = k ∧ v ∈ rest)) ∨ graph.test v w = true := by
    intro k rest
    induction rest with
    | nil => simp
    | cons k_inner rest ih =>
      intro graph
      rw [List.foldl_cons, ih, test_add_edge, List.mem_cons, List.mem_cons]
      tauto
  induction l generalizing graph with
  | nil => simp [addPairs]
  | cons k rest ih =>
    obtain ⟨hk, hrest⟩ := List.nodup_cons.mp hl
    rw [addPairs]
    refine (ih hrest _).trans ?_
    rw [hinner, List.mem_cons, List.mem_cons]
    constructor
    · rintro (⟨hv, hw, hne⟩ | (⟨rfl, hw⟩ | ⟨rfl, hv⟩) | h)
      · exact Or.inl ⟨Or.inr hv, Or.inr hw, hne⟩
      · exact Or.inl ⟨Or.inl rfl, Or.inr hw, fun h => hk (h ▸ hw)⟩
      · exact Or.inl ⟨Or.inr hv, Or.inl rfl, fun h => hk (h ▸ hv)⟩
      · exact Or.inr h
    · rintro (⟨rfl | hv, rfl | hw, hne⟩ | h)
      · exact absurd rfl hne
      · exact Or.inr (Or.inl (Or.inl ⟨rfl, hw⟩))
      · exact Or.inr (Or.inl (Or.inr ⟨rfl, hv⟩))
      · exact Or.inl ⟨hv, hw, hne⟩
      · exact Or.inr (Or.inr h)

/-- Two vertices interfere when a sub-partition has both. -/
theorem test_build {partitions : List (Finset C_vertex)} {v w : C_vertex} :
    (build partitions).test v w = true ↔ ∃ P ∈ partitions, v ∈ P ∧ w ∈ P ∧ v ≠ w := by
  have hloop : ∀ graph : InterferenceGraph,
      (partitions.foldl (fun graph P => addPairs (P.sort (· ≤ ·)) graph) graph).test v w = true ↔
        (∃ P ∈ partitions, v ∈ P ∧ w ∈ P ∧ v ≠ w) ∨ graph.test v w = true := by
    induction partitions with
    | nil => simp
    | cons P partitions ih =>
      intro graph
      rw [List.foldl_cons, ih, test_addPairs (Finset.sort_nodup _ _)]
      simp only [Finset.mem_sort, List.mem_cons, exists_eq_or_imp]
      rw [← or_assoc, or_comm (a := v ∈ P ∧ w ∈ P ∧ v ≠ w)]
  rw [build, hloop]
  refine or_iff_left ?_
  simp [test]

end InterferenceGraph

/-! ## The arcs -/

section Arcs

variable {pb} {cols : Columns} {num_cols : Nat} {column_already_assigned : Finset Nat}

theorem linked_append {arcs arcs' : List Arc} {i j : Nat} :
    Linked (arcs ++ arcs') i j ↔ Linked arcs i j ∨ Linked arcs' i j := by
  simp only [Linked, List.mem_append, or_and_right, exists_or]

theorem linked_vertexArcs {i v j y : Nat} :
    Linked (vertexArcs pb cols num_cols column_already_assigned i v) j y ↔
      j = i ∧ y < num_cols ∧ y ∉ column_already_assigned ∧ compatible pb cols v y := by
  simp only [Linked, vertexArcs, List.mem_map, List.mem_filter, List.mem_range,
    decide_eq_true_eq]
  constructor
  · rintro ⟨a, ⟨y', h, rfl⟩, rfl, rfl⟩
    exact ⟨rfl, h⟩
  · rintro ⟨rfl, h⟩
    exact ⟨_, ⟨y, h, rfl⟩, rfl, rfl⟩

theorem linked_paddingArcs {i j y : Nat} :
    Linked (paddingArcs num_cols column_already_assigned i) j y ↔
      j = i ∧ y < num_cols ∧ y ∉ column_already_assigned := by
  simp only [Linked, paddingArcs, List.mem_map, List.mem_filter, List.mem_range,
    decide_eq_true_eq]
  constructor
  · rintro ⟨a, ⟨y', h, rfl⟩, rfl, rfl⟩
    exact ⟨rfl, h⟩
  · rintro ⟨rfl, h⟩
    exact ⟨_, ⟨y, h, rfl⟩, rfl, rfl⟩

theorem linked_pinnedArcs {not_assignedN j y : Nat} {assigned : List C_vertex} :
    Linked (pinnedArcs cols not_assignedN assigned) j y ↔
      ∃ k, ∃ pver, assigned[k]? = some pver ∧ j = not_assignedN + k ∧
        y = (cols.already_assigned pver).getD 0 := by
  simp only [Linked, pinnedArcs, List.mem_map, Prod.exists, List.mem_zipIdx_iff_getElem?]
  constructor
  · rintro ⟨a, ⟨pver, k, hk, rfl⟩, rfl, rfl⟩
    exact ⟨k, pver, hk, rfl, rfl⟩
  · rintro ⟨k, pver, hk, rfl, rfl⟩
    exact ⟨_, ⟨pver, k, hk, rfl⟩, rfl, rfl⟩

/-- Where the loop leads a node: to the free columns, for a vertex to the compatible ones. -/
def Reached (pb : Problem) (cols : Columns) (num_cols : Nat) (column_already_assigned : Finset Nat)
    (rest : List C_vertex) (k y : Nat) : Prop :=
  y < num_cols ∧ y ∉ column_already_assigned ∧ ∀ v, rest[k]? = some v → compatible pb cols v y

theorem linked_addArcs {count i : Nat} {rest : List C_vertex} {arcs arcs' : List Arc}
    (h : addArcs pb cols num_cols column_already_assigned count i rest arcs = some arcs')
    (j y : Nat) : Linked arcs' j y ↔ Linked arcs j y ∨ ∃ k < count, j = i + k ∧
      Reached pb cols num_cols column_already_assigned rest k y := by
  induction count generalizing i rest arcs with
  | zero =>
    cases h
    simp
  | succ count ih =>
    have hsplit : ∀ P : Nat → Prop, (∃ k < count + 1, P k) ↔ P 0 ∨ ∃ k < count, P (k + 1) := by
      intro P
      rw [← Nat.exists_lt_succ_left]
    rw [hsplit]
    cases rest with
    | nil =>
      rw [ih h, linked_append, linked_paddingArcs, or_assoc]
      simp only [Reached, List.getElem?_nil, Nat.add_zero, Nat.add_assoc, Nat.add_comm 1,
        reduceCtorEq, false_implies, implies_true, and_true]
    | cons v rest =>
      rw [addArcs] at h
      split at h
      · cases h
      · rw [ih h, linked_append, linked_vertexArcs, or_assoc]
        simp only [Reached, List.getElem?_cons_zero, List.getElem?_cons_succ, Nat.add_zero,
          Nat.add_assoc, Nat.add_comm 1, Option.some.injEq, forall_eq']

/-- The loop fails only for a vertex without a column. -/
theorem addArcs_isSome {count i : Nat} {rest : List C_vertex} {arcs : List Arc}
    (h : ∀ v ∈ rest, ∃ y < num_cols, y ∉ column_already_assigned ∧ compatible pb cols v y) :
    ∃ arcs', addArcs pb cols num_cols column_already_assigned count i rest arcs = some arcs' := by
  induction count generalizing i rest arcs with
  | zero => exact ⟨arcs, rfl⟩
  | succ count ih =>
    cases rest with
    | nil => exact ih h
    | cons v rest =>
      obtain ⟨y, hy, hfree, hcomp⟩ := h v List.mem_cons_self
      have hlinked : Linked (vertexArcs pb cols num_cols column_already_assigned i v) i y :=
        linked_vertexArcs.mpr ⟨rfl, hy, hfree, hcomp⟩
      rw [addArcs]
      split
      case h_1 hnil =>
        rw [hnil] at hlinked
        obtain ⟨a, ha, -⟩ := hlinked
        exact absurd ha List.not_mem_nil
      case h_2 => exact ih fun v hv => h v (List.mem_cons_of_mem _ hv)

end Arcs

/-! ## The columns -/

/-- Each vertex so far is in the column it is assigned to, and no two in one column interfere. -/
structure Placed (pb : Problem) (num_cols : Nat) (done : C_vertex → Prop) (cols : Columns) :
    Prop where
  length : cols.cliques.length = num_cols
  assigned_iff : ∀ v y, cols.already_assigned v = some y ↔ v ∈ cols.column y
  apart : ∀ y, ∀ v ∈ cols.column y, ∀ w ∈ cols.column y, v ≠ w →
    pb.interferenceGraph.test v w = false
  mem_iff : ∀ v, (∃ y, v ∈ cols.column y) ↔ done v

section Placed

variable {pb} {num_cols : Nat} {done done' : C_vertex → Prop} {cols : Columns}

theorem InterferenceGraph.test_comm (graph : InterferenceGraph) (v w : C_vertex) :
    graph.test v w = graph.test w v := by
  have hsymm : ensure_order v w = ensure_order w v := ensure_order_eq_iff.mpr (Or.inr ⟨rfl, rfl⟩)
  rw [test, test, hsymm]

theorem Placed.congr (h : Placed pb num_cols done cols) (hdone : ∀ v, done v ↔ done' v) :
    Placed pb num_cols done' cols :=
  ⟨h.length, h.assigned_iff, h.apart, fun v => (h.mem_iff v).trans (hdone v)⟩

theorem Columns.lt_of_mem {v : C_vertex} {y : Nat} (h : v ∈ cols.column y) :
    y < cols.cliques.length := by
  by_contra hy
  rw [column, List.getElem?_eq_none (not_lt.mp hy)] at h
  exact absurd h (Finset.notMem_empty v)

theorem Placed.done_iff (h : Placed pb num_cols done cols) (v : C_vertex) :
    done v ↔ cols.already_assigned v ≠ none := by
  rw [← h.mem_iff, Option.ne_none_iff_exists']
  exact exists_congr fun y => (h.assigned_iff v y).symm

/-- A vertex is put into a compatible column. -/
theorem Placed.insert (h : Placed pb num_cols done cols) {v : C_vertex} {y : Nat} (hv : ¬ done v)
    (hy : y < num_cols) (hcomp : compatible pb cols v y) :
    Placed pb num_cols (fun w => done w ∨ w = v)
      { cliques := cols.cliques.modify y (Insert.insert v)
        already_assigned := Function.update cols.already_assigned v (some y) } := by
  obtain ⟨cols', hcols'⟩ : ∃ cols' : Columns, cols' =
    { cliques := cols.cliques.modify y (Insert.insert v)
      already_assigned := Function.update cols.already_assigned v (some y) } := ⟨_, rfl⟩
  have hcolumn : ∀ z w, w ∈ cols'.column z ↔ w ∈ cols.column z ∨ (w = v ∧ z = y) := by
    intro z w
    rw [hcols', Columns.column, Columns.column, List.getElem?_modify]
    by_cases hz : y = z
    · subst hz
      rw [← h.length] at hy
      simp [hy, or_comm]
    · simp [hz, Ne.symm hz]
  have hfresh : ∀ z, v ∉ cols.column z := fun z hz => hv ((h.mem_iff v).mp ⟨z, hz⟩)
  rw [← hcols']
  constructor
  case length =>
    rw [hcols', List.length_modify]
    exact h.length
  case assigned_iff =>
    intro w z
    rw [hcolumn, ← h.assigned_iff, hcols']
    by_cases hw : w = v
    · subst hw
      have hnone : ¬ cols.already_assigned w = some z :=
        fun hz => hfresh z ((h.assigned_iff w z).mp hz)
      simp [hnone, eq_comm]
    · simp [hw]
  case apart =>
    intro z a ha b hb hab
    obtain ha | ⟨rfl, rfl⟩ := (hcolumn z a).mp ha <;> obtain hb | ⟨rfl, hz⟩ := (hcolumn z b).mp hb
    · exact h.apart z a ha b hb hab
    · subst hz
      rw [InterferenceGraph.test_comm]
      exact hcomp a ha
    · exact hcomp b hb
    · exact absurd rfl hab
  case mem_iff =>
    intro w
    simp only [hcolumn, exists_or, h.mem_iff, exists_and_left, exists_eq, and_true]

/-- Vertices are put into compatible columns of their own. -/
theorem Placed.place {mate : Nat → Nat} {i : Nat} {rest : List C_vertex}
    (h : Placed pb num_cols done cols) (hnew : ∀ v ∈ rest, ¬ done v) (hnodup : rest.Nodup)
    (hmate : ∀ k v, rest[k]? = some v →
      mate (i + k) < num_cols ∧ compatible pb cols v (mate (i + k)))
    (hinj : ∀ k < rest.length, ∀ l < rest.length, mate (i + k) = mate (i + l) → k = l) :
    Placed pb num_cols (fun v => done v ∨ v ∈ rest) (place mate i rest cols) := by
  induction rest generalizing i done cols with
  | nil => exact h.congr fun v => by simp
  | cons v rest ih =>
    obtain ⟨hv, hnodup⟩ := List.nodup_cons.mp hnodup
    obtain ⟨hy, hcomp⟩ := hmate 0 v rfl
    have hstep := h.insert (hnew v List.mem_cons_self) hy hcomp
    refine (ih hstep ?_ hnodup ?_ ?_).congr fun w => ?_
    · rintro w hw (hdone | rfl)
      · exact hnew w (List.mem_cons_of_mem _ hw) hdone
      · exact hv hw
    · intro k w hk
      have hidx : i + 1 + k = i + (k + 1) := by omega
      obtain ⟨hlt, hw⟩ := hmate (k + 1) w hk
      rw [hidx]
      refine ⟨hlt, ?_⟩
      -- The columns of the other vertices are not the one that has changed.
      have hne : mate (i + 0) ≠ mate (i + (k + 1)) := by
        intro heq
        have hklt : k < rest.length := (List.getElem?_eq_some_iff.mp hk).1
        exact absurd (hinj 0 (by simp) (k + 1) (by simpa using hklt) heq) (by omega)
      have hsame : (({ cliques := cols.cliques.modify (mate (i + 0)) (Insert.insert v)
                       already_assigned := Function.update cols.already_assigned v
                         (some (mate (i + 0))) } : Columns)).column (mate (i + (k + 1))) =
          cols.column (mate (i + (k + 1))) := by
        simp only [Columns.column, List.getElem?_modify, if_neg hne, Option.map_eq_map,
          Option.map_id']
      intro cv hcv
      rw [hsame] at hcv
      exact hw cv hcv
    · intro k hk l hl heq
      have hkl := hinj (k + 1) (by simpa using hk) (l + 1) (by simpa using hl) (by
        rw [show i + (k + 1) = i + 1 + k by omega, show i + (l + 1) = i + 1 + l by omega]
        exact heq)
      omega
    · rw [List.mem_cons, or_assoc]

/-! ## One sub-partition -/

/-- A loop that returns has found a column for each vertex. -/
theorem reached_of_addArcs {column_already_assigned : Finset Nat} {count i : Nat}
    {rest : List C_vertex} {arcs arcs' : List Arc}
    (h : addArcs pb cols num_cols column_already_assigned count i rest arcs = some arcs')
    {k : Nat} (hk : k < count) (hkr : k < rest.length) :
    ∃ y, Reached pb cols num_cols column_already_assigned rest k y := by
  induction count generalizing i rest arcs k with
  | zero => exact absurd hk (Nat.not_lt_zero k)
  | succ count ih =>
    cases rest with
    | nil => exact absurd hkr (Nat.not_lt_zero k)
    | cons v rest =>
      rw [addArcs] at h
      split at h
      · cases h
      case h_2 new hnew =>
        cases k with
        | zero =>
          cases harcs : vertexArcs pb cols num_cols column_already_assigned i v with
          | nil => exact absurd harcs hnew
          | cons a arcs =>
            have hlinked : Linked (vertexArcs pb cols num_cols column_already_assigned i v)
                a.left a.right := ⟨a, by rw [harcs]; exact List.mem_cons_self, rfl, rfl⟩
            obtain ⟨-, hy, hfree, hcomp⟩ := linked_vertexArcs.mp hlinked
            exact ⟨a.right, hy, hfree, fun w hw => by cases hw; exact hcomp⟩
        | succ k =>
          exact ih h (Nat.lt_of_succ_lt_succ hk) (Nat.lt_of_succ_lt_succ hkr)

/-- The vertices of the sub-partition, those without a column and the other ones. -/
theorem length_add_length (cols : Columns) (p : Finset C_vertex) :
    ((p.filter fun pver => cols.already_assigned pver = none).sort (· ≤ ·)).length +
      ((p.filter fun pver => cols.already_assigned pver ≠ none).sort (· ≤ ·)).length = p.card := by
  rw [Finset.length_sort, Finset.length_sort]
  exact Finset.card_filter_add_card_filter_not _

theorem assignPartition_placed (hsolve : IsAssignmentSolver pb.solve)
    (h : Placed pb num_cols done cols) {p : Finset C_vertex} (hp : p.card ≤ num_cols)
    {cols' : Columns} (hrun : assignPartition pb num_cols cols p = some cols') :
    Placed pb num_cols (fun v => done v ∨ v ∈ p) cols' := by
  have hlen := length_add_length cols p
  unfold assignPartition at hrun
  obtain ⟨new, hnew⟩ : ∃ new, new =
    (p.filter fun pver => cols.already_assigned pver = none).sort (· ≤ ·) := ⟨_, rfl⟩
  obtain ⟨old, hold⟩ : ∃ old, old =
    (p.filter fun pver => cols.already_assigned pver ≠ none).sort (· ≤ ·) := ⟨_, rfl⟩
  have hmem : ∀ v, v ∈ new ↔ v ∈ p ∧ ¬ done v := by
    intro v
    rw [hnew, Finset.mem_sort, Finset.mem_filter, h.done_iff, not_not]
  have hdone : ∀ v, (done v ∨ v ∈ new) ↔ (done v ∨ v ∈ p) := by
    intro v
    rw [hmem]
    tauto
  rw [← hnew, ← hold] at hrun hlen
  by_cases hnil : new = []
  · rw [if_pos hnil] at hrun
    cases hrun
    refine h.congr fun v => ?_
    rw [← hdone, hnil]
    simp
  · rw [if_neg hnil] at hrun
    obtain ⟨arcs, harcs, hrun⟩ := Option.bind_eq_some_iff.mp hrun
    obtain ⟨mate, hmate, rfl⟩ := Option.map_eq_some_iff.mp hrun
    have hperfect := hsolve.sound arcs mate hmate
    have hlt : ∀ k < new.length, k < numNodes arcs := by
      intro k hk
      obtain ⟨y, hy⟩ := reached_of_addArcs harcs (k := k) (by omega) hk
      have hlinked : Linked arcs k y :=
        (linked_addArcs harcs k y).mpr (Or.inr ⟨k, by omega, (Nat.zero_add k).symm, hy⟩)
      exact hlinked.lt.1
    have hplace : Placed pb num_cols (fun v => done v ∨ v ∈ new) (place mate 0 new cols) := by
      refine h.place ?_ ?_ ?_ ?_
      · exact fun v hv => ((hmem v).mp hv).2
      · rw [hnew]
        exact Finset.sort_nodup _ _
      · intro k v hk
        have hkn : k < new.length := (List.getElem?_eq_some_iff.mp hk).1
        rw [Nat.zero_add]
        -- The arc to the mate is not one of a vertex that had a column before.
        obtain hpin | ⟨l, hl, hkl, hreached⟩ :=
          (linked_addArcs harcs k (mate k)).mp (hperfect.linked k (hlt k hkn))
        · obtain ⟨l, w, -, hkl, -⟩ := linked_pinnedArcs.mp hpin
          omega
        · obtain rfl : k = l := by omega
          exact ⟨hreached.1, hreached.2.2 v hk⟩
      · intro k hk l hl heq
        rw [Nat.zero_add, Nat.zero_add] at heq
        exact hperfect.inj k (hlt k hk) l (hlt l hl) heq
    exact hplace.congr hdone

/-- As many columns are empty as there are vertices without a column. -/
theorem Placed.le_card_empty (h : Placed pb num_cols done cols) {vertices new : Finset C_vertex}
    (hdone : ∀ v, done v → v ∈ vertices) (hcard : vertices.card ≤ num_cols)
    (hsub : new ⊆ vertices) (hnew : ∀ v ∈ new, ¬ done v) :
    new.card ≤ ((Finset.range num_cols).filter fun y => cols.column y = ∅).card := by
  have hfilled : ((Finset.range num_cols).filter fun y => ¬ cols.column y = ∅).card ≤
      (vertices \ new).card := by
    refine (Finset.card_le_card (t := (vertices \ new).image fun v =>
      (cols.already_assigned v).getD 0) fun y hy => ?_).trans Finset.card_image_le
    obtain ⟨v, hv⟩ := Finset.nonempty_iff_ne_empty.mpr (Finset.mem_filter.mp hy).2
    have hvd : done v := (h.mem_iff v).mp ⟨y, hv⟩
    refine Finset.mem_image.mpr ⟨v, Finset.mem_sdiff.mpr ⟨hdone v hvd, fun hvn => hnew v hvn hvd⟩, ?_⟩
    rw [(h.assigned_iff v y).mpr hv]
    rfl
  have hsum := Finset.card_filter_add_card_filter_not (s := Finset.range num_cols)
    fun y => cols.column y = ∅
  have hsdiff := Finset.card_sdiff_add_card_eq_card hsub
  rw [Finset.card_range] at hsum
  omega

/-- With as many columns as vertices an assignment exists. -/
theorem assignPartition_isSome (hsolve : IsAssignmentSolver pb.solve)
    (h : Placed pb num_cols done cols) {vertices p : Finset C_vertex}
    (hdone : ∀ v, done v → v ∈ vertices) (hcard : vertices.card ≤ num_cols) (hsub : p ⊆ vertices)
    (hp : ∀ v ∈ p, ∀ w ∈ p, v ≠ w → pb.interferenceGraph.test v w = true) :
    ∃ cols', assignPartition pb num_cols cols p = some cols' := by
  have hlen := length_add_length cols p
  unfold assignPartition
  obtain ⟨new, hnew⟩ : ∃ new, new =
    (p.filter fun pver => cols.already_assigned pver = none).sort (· ≤ ·) := ⟨_, rfl⟩
  obtain ⟨old, hold⟩ : ∃ old, old =
    (p.filter fun pver => cols.already_assigned pver ≠ none).sort (· ≤ ·) := ⟨_, rfl⟩
  obtain ⟨pinned, hpinned⟩ : ∃ pinned, pinned =
    (old.filterMap fun pver => cols.already_assigned pver).toFinset := ⟨_, rfl⟩
  obtain ⟨empty, hempty⟩ : ∃ empty, empty =
    ((Finset.range num_cols).filter fun y => cols.column y = ∅).sort (· ≤ ·) := ⟨_, rfl⟩
  rw [← hnew, ← hold] at hlen
  simp only [← hnew, ← hold, ← hpinned]
  have hple : p.card ≤ num_cols := (Finset.card_le_card hsub).trans hcard
  by_cases hnil : new = []
  · exact ⟨cols, if_pos hnil⟩
  rw [if_neg hnil]
  have hnewNodup : new.Nodup := by
    rw [hnew]
    exact Finset.sort_nodup _ _
  have hemptyNodup : empty.Nodup := by
    rw [hempty]
    exact Finset.sort_nodup _ _
  have holdNodup : old.Nodup := by
    rw [hold]
    exact Finset.sort_nodup _ _
  have hroom : new.length ≤ empty.length := by
    rw [hnew, hempty, Finset.length_sort, Finset.length_sort]
    refine h.le_card_empty hdone hcard ((Finset.filter_subset _ _).trans hsub) fun v hv => ?_
    rw [h.done_iff, not_not]
    exact (Finset.mem_filter.mp hv).2
  have hemptyMem : ∀ {y}, y ∈ empty → y < num_cols ∧ cols.column y = ∅ := by
    intro y hy
    rw [hempty, Finset.mem_sort, Finset.mem_filter, Finset.mem_range] at hy
    exact hy
  obtain ⟨col, hcol⟩ : ∃ col : C_vertex → Nat, col =
    fun pver => (cols.already_assigned pver).getD 0 := ⟨_, rfl⟩
  have hassigned : ∀ {v}, v ∈ old → cols.already_assigned v = some (col v) := by
    intro v hv
    rw [hold, Finset.mem_sort, Finset.mem_filter, Option.ne_none_iff_exists'] at hv
    obtain ⟨-, y, hy⟩ := hv
    simp only [hcol, hy, Option.getD_some]
  have holdMem : ∀ {v}, v ∈ old → v ∈ p ∧ col v < num_cols ∧ v ∈ cols.column (col v) := by
    intro v hv
    have hvy := (h.assigned_iff v _).mp (hassigned hv)
    rw [hold, Finset.mem_sort, Finset.mem_filter] at hv
    exact ⟨hv.1, h.length ▸ Columns.lt_of_mem hvy, hvy⟩
  have hpinnedMem : ∀ {y}, y ∈ pinned ↔ ∃ v ∈ old, col v = y := by
    intro y
    rw [hpinned, List.mem_toFinset, List.mem_filterMap]
    refine exists_congr fun v => and_congr_right fun hv => ?_
    rw [hassigned hv, Option.some.injEq]
  have hfree : ∀ {y}, y ∈ empty → y ∉ pinned := by
    intro y hy hyp
    obtain ⟨v, hv, rfl⟩ := hpinnedMem.mp hyp
    have hvy := (holdMem hv).2.2
    rw [(hemptyMem hy).2] at hvy
    exact absurd hvy (Finset.notMem_empty v)
  have hcomp : ∀ {y} v, y ∈ empty → compatible pb cols v y := by
    intro y v hy cv hcv
    rw [(hemptyMem hy).2] at hcv
    exact absurd hcv (Finset.notMem_empty cv)
  obtain ⟨arcs, harcs⟩ : ∃ arcs, addArcs pb cols num_cols pinned num_cols 0 new
      (pinnedArcs cols new.length old) = some arcs := by
    refine addArcs_isSome fun v hv => ?_
    have hpos : 0 < empty.length := (List.length_pos_of_mem hv).trans_le hroom
    have hy := List.getElem_mem hpos
    exact ⟨_, (hemptyMem hy).1, hfree hy, hcomp v hy⟩
  -- New vertices get empty columns and the other ones their own.
  have hnodup : (empty.take new.length ++ old.map col).Nodup := by
    refine List.nodup_append.mpr ⟨hemptyNodup.sublist (List.take_sublist _ _), ?_, ?_⟩
    · refine holdNodup.map_on fun v hv w hw hvw => ?_
      -- Two vertices of the sub-partition are not in one column.
      by_contra hne
      have hvy := (holdMem hv).2.2
      have hwy := (holdMem hw).2.2
      rw [← hvw] at hwy
      have htest := hp v (holdMem hv).1 w (holdMem hw).1 hne
      rw [h.apart _ v hvy w hwy hne] at htest
      exact Bool.noConfusion htest
    · rintro y hy _ hz rfl
      obtain ⟨v, hv, rfl⟩ := List.mem_map.mp hz
      exact hfree (List.mem_of_mem_take hy) (hpinnedMem.mpr ⟨v, hv, rfl⟩)
  obtain ⟨g, hg, hmaps, hinj, hrest⟩ := exists_extension (n := num_cols) hnodup (by
    intro y hy
    obtain hy | hy := List.mem_append.mp hy
    · exact (hemptyMem (List.mem_of_mem_take hy)).1
    · obtain ⟨v, hv, rfl⟩ := List.mem_map.mp hy
      exact (holdMem hv).2.1)
  have htake : (empty.take new.length).length = new.length := List.length_take_of_le hroom
  have hlinked : ∀ i < num_cols, Linked arcs i (g i) := by
    intro i hi
    rw [linked_addArcs harcs]
    obtain hin | hin := Nat.lt_or_ge i new.length
    · have hget : (empty.take new.length ++ old.map col)[i]? = some empty[i] := by
        rw [List.getElem?_append_left (by omega), List.getElem?_take_of_lt hin,
          List.getElem?_eq_getElem]
      have hy := List.getElem_mem (hin.trans_le hroom)
      rw [← hg i _ hget] at hy
      exact Or.inr ⟨i, hi, (Nat.zero_add i).symm, (hemptyMem hy).1, hfree hy,
        fun v _ => hcomp v hy⟩
    · obtain ⟨k, rfl⟩ := Nat.exists_eq_add_of_le hin
      obtain hk | hk := Nat.lt_or_ge k old.length
      · refine Or.inl (linked_pinnedArcs.mpr ⟨k, old[k], List.getElem?_eq_getElem hk, rfl, ?_⟩)
        refine hg _ _ ?_
        rw [List.getElem?_append_right (by omega), htake, Nat.add_sub_cancel_left,
          List.getElem?_map, List.getElem?_eq_getElem hk, hassigned (List.getElem_mem hk)]
        rfl
      · have hnot := hrest _ hi (by simp only [List.length_append, List.length_map]; omega)
        refine Or.inr ⟨_, hi, (Nat.zero_add _).symm, hmaps _ hi, fun hpin => hnot ?_,
          fun v hv => ?_⟩
        · obtain ⟨v, hv, hy⟩ := hpinnedMem.mp hpin
          rw [← hy]
          exact List.mem_append_right _ (List.mem_map_of_mem hv)
        · have := (List.getElem?_eq_some_iff.mp hv).1
          omega
  have hnodes : numNodes arcs ≤ num_cols := by
    refine numNodes_le fun a ha => ?_
    obtain hpin | ⟨k, hk, hak, hreached⟩ :=
      (linked_addArcs harcs a.left a.right).mp ⟨a, ha, rfl, rfl⟩
    · obtain ⟨k, v, hk, hl, hr⟩ := linked_pinnedArcs.mp hpin
      obtain ⟨hkl, rfl⟩ := List.getElem?_eq_some_iff.mp hk
      rw [hassigned (List.getElem_mem hkl), Option.getD_some] at hr
      exact ⟨by omega, hr ▸ (holdMem (List.getElem_mem hkl)).2.1⟩
    · exact ⟨by omega, hreached.1⟩
  obtain ⟨mate, hmate⟩ := hsolve.complete arcs g
    ⟨fun i hi => hlinked i (hi.trans_le hnodes),
      fun i hi j hj => hinj i (hi.trans_le hnodes) j (hj.trans_le hnodes)⟩
  exact ⟨place mate 0 new cols, by rw [harcs, Option.bind_some, hmate, Option.map_some]⟩

/-! ## All sub-partitions -/

theorem fold_placed (hsolve : IsAssignmentSolver pb.solve) {ps : List (Finset C_vertex)}
    (hps : ∀ P ∈ ps, P.card ≤ num_cols) (h : Placed pb num_cols done cols) {cols' : Columns}
    (hrun : ps.foldlM (assignPartition pb num_cols) cols = some cols') :
    Placed pb num_cols (fun v => done v ∨ ∃ P ∈ ps, v ∈ P) cols' := by
  induction ps generalizing done cols with
  | nil =>
    cases hrun
    exact h.congr fun v => by simp
  | cons P ps ih =>
    rw [List.foldlM_cons] at hrun
    obtain ⟨cols₁, hrun₁, hrun⟩ := Option.bind_eq_some_iff.mp hrun
    have h₁ := assignPartition_placed hsolve h (hps P List.mem_cons_self) hrun₁
    refine (ih (fun Q hQ => hps Q (List.mem_cons_of_mem _ hQ)) h₁ hrun).congr fun v => ?_
    rw [List.exists_mem_cons_iff, or_assoc]

theorem fold_isSome (hsolve : IsAssignmentSolver pb.solve) {ps : List (Finset C_vertex)}
    {vertices : Finset C_vertex} (hcard : vertices.card ≤ num_cols)
    (hsub : ∀ P ∈ ps, P ⊆ vertices)
    (hps : ∀ P ∈ ps, ∀ v ∈ P, ∀ w ∈ P, v ≠ w → pb.interferenceGraph.test v w = true)
    (h : Placed pb num_cols done cols) (hdone : ∀ v, done v → v ∈ vertices) :
    ∃ cols', ps.foldlM (assignPartition pb num_cols) cols = some cols' := by
  induction ps generalizing done cols with
  | nil => exact ⟨cols, rfl⟩
  | cons P ps ih =>
    have hP := hsub P List.mem_cons_self
    obtain ⟨cols₁, hrun₁⟩ :=
      assignPartition_isSome hsolve h hdone hcard hP (hps P List.mem_cons_self)
    have h₁ := assignPartition_placed hsolve h ((Finset.card_le_card hP).trans hcard) hrun₁
    obtain ⟨cols', hrun⟩ := ih (fun Q hQ => hsub Q (List.mem_cons_of_mem _ hQ))
      (fun Q hQ => hps Q (List.mem_cons_of_mem _ hQ)) h₁
      (fun v hv => hv.elim (hdone v) fun hvP => hP hvP)
    refine ⟨cols', ?_⟩
    rw [List.foldlM_cons, hrun₁]
    exact hrun

theorem placed_empty (pb : Problem) {cliques : List (Finset C_vertex)}
    (hlen : cliques.length = num_cols)
    (hempty : ∀ c ∈ cliques, c = ∅) :
    Placed pb num_cols (fun _ => False) ⟨cliques, fun _ => none⟩ := by
  have hcolumn : ∀ y v, v ∉ (⟨cliques, fun _ => none⟩ : Columns).column y := by
    intro y v hv
    unfold Columns.column at hv
    cases hy : cliques[y]? with
    | none => simp [hy] at hv
    | some c =>
      rw [hy, Option.getD_some, hempty c (List.mem_of_getElem? hy)] at hv
      exact absurd hv (Finset.notMem_empty v)
  constructor
  case length => exact hlen
  case assigned_iff => exact fun v y => iff_of_false (by rintro ⟨⟩) (hcolumn y v)
  case apart => exact fun y v hv => absurd hv (hcolumn y v)
  case mem_iff => exact fun v => iff_of_false (fun ⟨y, hy⟩ => hcolumn y v hy) id

/-- The restarts end, at the latest with as many columns as there are vertices. -/
theorem attempts_spec (pb : Problem) (hsolve : IsAssignmentSolver pb.solve)
    {ps : List (Finset C_vertex)}
    (hgraph : ∀ v w, pb.interferenceGraph.test v w = true ↔ ∃ P ∈ ps, v ∈ P ∧ w ∈ P ∧ v ≠ w)
    (vertices : Finset C_vertex) (hsub : ∀ P ∈ ps, P ⊆ vertices) {max_num_cols : Nat}
    (hmax : max_num_cols = 0 ∨ vertices.card ≤ max_num_cols) (fuel num_cols : Nat)
    (cliques : List (Finset C_vertex)) (hps : ∀ P ∈ ps, P.card ≤ num_cols)
    (hlen : cliques.length = num_cols) (hempty : ∀ c ∈ cliques, c = ∅)
    (hfuel : 0 < fuel ∧ vertices.card < num_cols + fuel) :
    ∃ cols num_cols', attempts pb ps max_num_cols fuel num_cols cliques = .ok cols.cliques ∧
      Placed pb num_cols' (fun v => ∃ P ∈ ps, v ∈ P) cols := by
  induction fuel generalizing num_cols cliques with
  | zero => exact absurd hfuel.1 (Nat.lt_irrefl 0)
  | succ fuel ih =>
    have hinit := placed_empty pb hlen hempty
    rw [attempts]
    cases hrun : ps.foldlM (assignPartition pb num_cols) ⟨cliques, fun _ => none⟩ with
    | some cols =>
      exact ⟨cols, num_cols, rfl, (fold_placed hsolve hps hinit hrun).congr fun v => by simp⟩
    | none =>
      have hlt : num_cols < vertices.card := by
        by_contra hge
        obtain ⟨cols, hcols⟩ := fold_isSome hsolve (Nat.not_lt.mp hge) hsub
          (fun P hP v hv w hw hvw => (hgraph v w).mpr ⟨P, hP, hv, hw, hvw⟩) hinit
          (fun v hv => hv.elim)
        rw [hrun] at hcols
        cases hcols
      have hleft : max_num_cols = 0 ∨ max_num_cols > num_cols := hmax.imp_right hlt.trans_le
      simp only [throwAssert_of hleft, throwAssert_of (hleft.imp_right Nat.succ_le_of_lt), ok_bind]
      refine ih (num_cols + 1) _ (fun P hP => (hps P hP).trans (Nat.le_succ _)) ?_ ?_ (by omega)
      · simp [hlen]
      · intro c hc
        obtain ⟨_, -, rfl⟩ := List.mem_map.mp hc
        rfl

end Placed

/-! ## Before `exec` -/

namespace State

variable {st : State vertex_type}

/-- The ids of the sub-partitions come in order. -/
def Ordered (l : List (Nat × Finset C_vertex)) : Prop := l.Pairwise fun a b => a.1 < b.1

theorem mem_insertPartition {id C_v : Nat} {l : List (Nat × Finset C_vertex)}
    {a : Nat × Finset C_vertex} (h : a ∈ insertPartition id C_v l) :
    a.1 = id ∨ a ∈ l := by
  induction l with
  | nil => exact Or.inl (congrArg Prod.fst (List.mem_singleton.mp h))
  | cons b l ih =>
    rw [insertPartition] at h
    split at h
    · obtain rfl | h := List.mem_cons.mp h
      · exact Or.inl rfl
      · exact Or.inr h
    split at h
    case isTrue heq =>
      obtain rfl | h := List.mem_cons.mp h
      · exact Or.inl heq.symm
      · exact Or.inr (List.mem_cons_of_mem _ h)
    · obtain rfl | h := List.mem_cons.mp h
      · exact Or.inr List.mem_cons_self
      · exact (ih h).imp_right (List.mem_cons_of_mem _)

theorem Ordered.insertPartition {l : List (Nat × Finset C_vertex)} (h : Ordered l)
    (id C_v : Nat) : Ordered (insertPartition id C_v l) := by
  induction l with
  | nil => exact List.pairwise_singleton _ _
  | cons b l ih =>
    obtain ⟨hb, hl⟩ := List.pairwise_cons.mp h
    rw [State.insertPartition]
    split
    case isTrue hlt =>
      refine List.pairwise_cons.mpr ⟨fun a ha => ?_, h⟩
      obtain rfl | ha := List.mem_cons.mp ha
      · exact hlt
      · exact hlt.trans (hb a ha)
    split
    · exact List.pairwise_cons.mpr ⟨hb, hl⟩
    · refine List.pairwise_cons.mpr ⟨fun a ha => ?_, ih hl⟩
      obtain rfl | ha := mem_insertPartition ha
      · omega
      · exact hb a ha

theorem lookup_cons_eq (b : Nat × Finset C_vertex) (l : List (Nat × Finset C_vertex)) (id : Nat) :
    (b :: l).lookup id = if id = b.1 then some b.2 else l.lookup id := by
  rw [List.lookup_cons]
  by_cases hid : id = b.1
  · rw [if_pos hid, beq_iff_eq.mpr hid]
  · rw [if_neg hid, beq_eq_false_iff_ne.mpr hid]

theorem lookup_of_lt {l : List (Nat × Finset C_vertex)} {id : Nat} (h : ∀ a ∈ l, id < a.1) :
    l.lookup id = none := by
  induction l with
  | nil => rfl
  | cons b l ih =>
    rw [lookup_cons_eq, if_neg (h b List.mem_cons_self).ne]
    exact ih fun a ha => h a (List.mem_cons_of_mem _ ha)

theorem lookup_insertPartition {l : List (Nat × Finset C_vertex)} (h : Ordered l)
    (id C_v id' : Nat) : ((insertPartition id C_v l).lookup id').getD ∅ =
      if id' = id then insert C_v ((l.lookup id').getD ∅) else (l.lookup id').getD ∅ := by
  induction l with
  | nil =>
    rw [insertPartition, lookup_cons_eq]
    split <;> rfl
  | cons b l ih =>
    obtain ⟨hb, hl⟩ := List.pairwise_cons.mp h
    rw [insertPartition]
    split
    case isTrue hlt =>
      have hnone : (b :: l).lookup id = none := by
        refine lookup_of_lt fun a ha => ?_
        obtain rfl | ha := List.mem_cons.mp ha
        · exact hlt
        · exact hlt.trans (hb a ha)
      rw [lookup_cons_eq]
      split
      case isTrue hid =>
        rw [hid, hnone]
        rfl
      · rfl
    split
    case isTrue heq =>
      rw [lookup_cons_eq, lookup_cons_eq, heq]
      split <;> rfl
    case isFalse hne =>
      rw [lookup_cons_eq, lookup_cons_eq]
      by_cases hid : id' = b.1
      · have hne' : ¬ id' = id := fun heq => hne (heq.symm.trans hid)
        rw [if_pos hid, if_pos hid, if_neg hne']
      · rw [if_neg hid, if_neg hid]
        exact ih hl

theorem mem_iff_lookup {l : List (Nat × Finset C_vertex)} (h : Ordered l) {id : Nat}
    {P : Finset C_vertex} : (id, P) ∈ l ↔ l.lookup id = some P := by
  induction l with
  | nil => exact iff_of_false List.not_mem_nil (by rintro ⟨⟩)
  | cons b l ih =>
    obtain ⟨hb, hl⟩ := List.pairwise_cons.mp h
    rw [List.mem_cons, lookup_cons_eq]
    split
    case isTrue hid =>
      have hnot : (id, P) ∉ l := fun hmem => (hb _ hmem).ne hid.symm
      rw [or_iff_left hnot, Option.some.injEq]
      constructor
      · rintro rfl
        rfl
      · rintro rfl
        rw [hid]
    case isFalse hid =>
      rw [ih hl]
      refine or_iff_right ?_
      rintro rfl
      exact hid rfl

end State

/-- What the calls leave: the vertices are numbered, and the sub-partitions are those asked for. -/
structure Valid (calls : List (Call vertex_type)) (st : State vertex_type) : Prop where
  cliques : st.cliques = []
  v2uv_iff : ∀ v C, st.v2uv v = some C ↔ st.uv2v C = some v
  numbered : ∀ C, C < st.vindex ↔ ∃ v, st.uv2v C = some v
  ordered : State.Ordered st.partitions
  mem_partition : ∀ id C, C ∈ st.partition id ↔
    ∃ v, Call.add_subpartitions id v ∈ calls ∧ st.v2uv v = some C
  added : ∀ id v, Call.add_subpartitions id v ∈ calls → ∃ C, st.v2uv v = some C
  card_le : ∀ id, (st.partition id).card ≤ st.num_cols

omit [DecidableEq vertex_type] in
theorem valid_init : Valid ([] : List (Call vertex_type)) State.init where
  cliques := rfl
  v2uv_iff v C := by simp [State.init]
  numbered C := by simp [State.init]
  ordered := List.Pairwise.nil
  mem_partition id C := by simp [State.init, State.partition]
  added id v h := absurd h List.not_mem_nil
  card_le id := by simp [State.init, State.partition]

section Calls

variable {calls : List (Call vertex_type)} {st st' : State vertex_type}

omit [DecidableEq vertex_type] in
/-- A call that changes neither the vertices nor the sub-partitions. -/
theorem Valid.other (h : Valid calls st) {call : Call vertex_type}
    (hcall : ∀ id v, call ≠ Call.add_subpartitions id v) (hcliques : st'.cliques = st.cliques)
    (hv2uv : st'.v2uv = st.v2uv) (huv2v : st'.uv2v = st.uv2v) (hvindex : st'.vindex = st.vindex)
    (hpartitions : st'.partitions = st.partitions) (hcols : st.num_cols ≤ st'.num_cols) :
    Valid (calls ++ [call]) st' := by
  have hmem : ∀ id v, Call.add_subpartitions id v ∈ calls ++ [call] ↔
      Call.add_subpartitions id v ∈ calls := by
    intro id v
    rw [List.mem_append, List.mem_singleton]
    exact or_iff_left fun heq => hcall id v heq.symm
  have hpartition : ∀ id, st'.partition id = st.partition id := by
    intro id
    rw [State.partition, State.partition, hpartitions]
  refine ⟨hcliques.trans h.cliques, ?_, ?_, hpartitions ▸ h.ordered, ?_, ?_, ?_⟩
  · rw [hv2uv, huv2v]
    exact h.v2uv_iff
  · rw [huv2v, hvindex]
    exact h.numbered
  · intro id C
    rw [hpartition, hv2uv, h.mem_partition]
    simp only [hmem]
  · intro id v hv
    rw [hv2uv]
    exact h.added id v ((hmem id v).mp hv)
  · intro id
    rw [hpartition]
    exact (h.card_le id).trans hcols

omit [DecidableEq vertex_type] in
theorem Valid.numbering (h : Valid calls st) : Numbering st.v2uv st.uv2v st.vindex :=
  ⟨h.v2uv_iff, h.numbered⟩

theorem Valid.add_vertex (h : Valid calls st) {element : vertex_type}
    (hrun : st.add_vertex element = .ok st') : Valid (calls ++ [.add_vertex element]) st' := by
  obtain ⟨hfresh, hst'⟩ := throwAssert_bind_ok hrun
  cases hst'
  have hmem : ∀ id v, Call.add_subpartitions id v ∈ calls ++ [.add_vertex element] ↔
      Call.add_subpartitions id v ∈ calls := by simp
  have hkept : ∀ {v C}, st.v2uv v = some C →
      Function.update st.v2uv element (some st.vindex) v = some C :=
    fun hv => Numbering.update_of_some hfresh hv _
  have hnum := h.numbering.add hfresh
  refine ⟨h.cliques, hnum.iff, hnum.lt_iff, h.ordered, fun id C => ?_, fun id v hv => ?_,
    h.card_le⟩
  · refine (h.mem_partition id C).trans (exists_congr fun v => ?_)
    rw [hmem]
    refine and_congr_right fun hv => ?_
    obtain ⟨C', hC'⟩ := h.added id v hv
    show _ ↔ Function.update st.v2uv element (some st.vindex) v = some C
    rw [hC', hkept hC']
  · obtain ⟨C, hC⟩ := h.added id v ((hmem id v).mp hv)
    exact ⟨C, hkept hC⟩

omit [DecidableEq vertex_type] in
theorem Valid.add_subpartitions (h : Valid calls st) {id : Nat} {v : vertex_type}
    (hrun : st.add_subpartitions id v = .ok st') :
    Valid (calls ++ [.add_subpartitions id v]) st' := by
  unfold State.add_subpartitions at hrun
  cases hv : st.v2uv v with
  | none =>
    rw [hv] at hrun
    cases hrun
  | some C_v =>
    rw [hv] at hrun
    cases hrun
    have hpartition : ∀ id' C, C ∈ ((State.insertPartition id C_v st.partitions).lookup id').getD ∅ ↔
        (id' = id ∧ C = C_v) ∨ C ∈ st.partition id' := by
      intro id' C
      rw [State.lookup_insertPartition h.ordered]
      split
      case isTrue hid =>
        rw [Finset.mem_insert, and_iff_right hid]
        rfl
      case isFalse hid =>
        rw [or_iff_right fun hC => hid hC.1]
        rfl
    have hmem : ∀ id' w, Call.add_subpartitions id' w ∈ calls ++ [.add_subpartitions id v] ↔
        Call.add_subpartitions id' w ∈ calls ∨ (id' = id ∧ w = v) := by simp
    refine ⟨h.cliques, h.v2uv_iff, h.numbered, h.ordered.insertPartition id C_v, fun id' C => ?_,
      fun id' w hw => ?_, fun id' => ?_⟩
    · refine (hpartition id' C).trans ?_
      rw [h.mem_partition]
      constructor
      · rintro (⟨rfl, rfl⟩ | ⟨w, hw, hC⟩)
        · exact ⟨v, (hmem _ _).mpr (Or.inr ⟨rfl, rfl⟩), hv⟩
        · exact ⟨w, (hmem _ _).mpr (Or.inl hw), hC⟩
      · rintro ⟨w, hw, hC⟩
        obtain hw | ⟨rfl, rfl⟩ := (hmem _ _).mp hw
        · exact Or.inr ⟨w, hw, hC⟩
        · exact Or.inl ⟨rfl, Option.some.inj (hC.symm.trans hv)⟩
    · obtain hw | ⟨rfl, rfl⟩ := (hmem _ _).mp hw
      · exact h.added id' w hw
      · exact ⟨C_v, hv⟩
    · by_cases hid : id' = id
      · subst hid
        exact Nat.le_max_left _ _
      · have hsame : ((State.insertPartition id C_v st.partitions).lookup id').getD ∅ =
            st.partition id' := by
          rw [State.lookup_insertPartition h.ordered, if_neg hid]
          rfl
        refine le_trans (le_of_eq ?_) ((h.card_le id').trans (Nat.le_max_right _ _))
        exact congrArg Finset.card hsame

theorem Valid.step (h : Valid calls st) {call : Call vertex_type} (hrun : call.run st = .ok st') :
    Valid (calls ++ [call]) st' := by
  cases call with
  | add_vertex element => exact h.add_vertex hrun
  | add_subpartitions id v => exact h.add_subpartitions hrun
  | add_edge | suggest_max_resources _ =>
    cases hrun
    exact h.other (by rintro _ _ ⟨⟩) rfl rfl rfl rfl rfl (Nat.le_refl _)
  | suggest_min_resources n | min_resources n =>
    cases hrun
    exact h.other (by rintro _ _ ⟨⟩) rfl rfl rfl rfl rfl (Nat.le_max_left _ _)
  | max_resources n =>
    cases hrun
    exact h.other (by rintro _ _ ⟨⟩) rfl rfl rfl rfl rfl (Nat.le_refl _)

theorem valid_of_run {calls : List (Call vertex_type)} {st : State vertex_type}
    (hrun : calls.foldlM Call.run State.init = .ok st) : Valid calls st := by
  have hloop : ∀ (rest done : List (Call vertex_type)) (st₀ : State vertex_type), Valid done st₀ →
      rest.foldlM Call.run st₀ = .ok st → Valid (done ++ rest) st := by
    intro rest
    induction rest with
    | nil =>
      intro done st₀ h₀ hrun
      cases hrun
      rwa [List.append_nil]
    | cons call rest ih =>
      intro done st₀ h₀ hrun
      rw [List.foldlM_cons] at hrun
      cases hcall : call.run st₀ with
      | error e =>
        rw [hcall] at hrun
        cases hrun
      | ok st₁ =>
        rw [hcall] at hrun
        have h₁ := ih (done ++ [call]) st₁ (h₀.step hcall) hrun
        rwa [List.append_assoc] at h₁
  exact hloop calls [] State.init valid_init hrun

end Calls

/-! ## The cliques -/

/-- The vertices that the calls put into a sub-partition. -/
def members (calls : List (Call vertex_type)) (id : Nat) : Finset vertex_type :=
  (calls.filterMap fun call =>
    match call with
    | .add_subpartitions id' v => if id' = id then some v else none
    | _ => none).toFinset

theorem mem_members {calls : List (Call vertex_type)} {id : Nat} {v : vertex_type} :
    v ∈ members calls id ↔ Call.add_subpartitions id v ∈ calls := by
  rw [members, List.mem_toFinset, List.mem_filterMap]
  constructor
  · rintro ⟨call, hcall, hv⟩
    cases call with
    | add_subpartitions id' w =>
      obtain ⟨rfl, hw⟩ := Option.ite_none_right_eq_some.mp hv
      cases hw
      exact hcall
    | _ => cases hv
  · exact fun h => ⟨_, h, if_pos rfl⟩

/-- The cliques by numbers, without the empty ones. -/
structure Cliques (partitions : List (Finset C_vertex)) (cliques : List (Finset C_vertex)) :
    Prop where
  nonempty : ∀ c ∈ cliques, c.Nonempty
  disjoint : cliques.Pairwise Disjoint
  mem_iff : ∀ C, (∃ c ∈ cliques, C ∈ c) ↔ ∃ P ∈ partitions, C ∈ P
  apart : ∀ c ∈ cliques, ∀ P ∈ partitions, ∀ C ∈ c, ∀ D ∈ c, C ∈ P → D ∈ P → C = D

theorem Placed.filter {pb : Problem} {num_cols : Nat} {cols : Columns} {ps : List (Finset C_vertex)}
    (hgraph : ∀ v w, pb.interferenceGraph.test v w = true ↔ ∃ P ∈ ps, v ∈ P ∧ w ∈ P ∧ v ≠ w)
    (h : Placed pb num_cols (fun v => ∃ P ∈ ps, v ∈ P) cols) :
    Cliques ps (cols.cliques.filter fun clique => clique ≠ ∅) := by
  have hcolumn : ∀ y (hy : y < cols.cliques.length), cols.column y = cols.cliques[y] := by
    intro y hy
    rw [Columns.column, List.getElem?_eq_getElem hy, Option.getD_some]
  constructor
  case nonempty =>
    intro c hc
    exact Finset.nonempty_iff_ne_empty.mpr (of_decide_eq_true (List.mem_filter.mp hc).2)
  case disjoint =>
    refine List.Pairwise.filter _ (List.pairwise_iff_getElem.mpr fun y z hy hz hyz => ?_)
    rw [← hcolumn y hy, ← hcolumn z hz, Finset.disjoint_left]
    intro v hv hv'
    have heq := ((h.assigned_iff v y).mpr hv).symm.trans ((h.assigned_iff v z).mpr hv')
    exact hyz.ne (Option.some.inj heq)
  case mem_iff =>
    intro v
    rw [← h.mem_iff]
    constructor
    · rintro ⟨c, hc, hv⟩
      obtain ⟨y, hy, rfl⟩ := List.getElem_of_mem (List.mem_filter.mp hc).1
      exact ⟨y, by rwa [hcolumn y hy]⟩
    · rintro ⟨y, hv⟩
      have hy := Columns.lt_of_mem hv
      rw [hcolumn y hy] at hv
      refine ⟨_, List.mem_filter.mpr ⟨List.getElem_mem hy, decide_eq_true ?_⟩, hv⟩
      exact Finset.nonempty_iff_ne_empty.mp ⟨v, hv⟩
  case apart =>
    intro c hc P hP v hv w hw hvP hwP
    obtain ⟨y, hy, rfl⟩ := List.getElem_of_mem (List.mem_filter.mp hc).1
    rw [← hcolumn y hy] at hv hw
    by_contra hne
    have htest := (hgraph v w).mpr ⟨P, hP, hvP, hwP, hne⟩
    rw [h.apart y v hv w hw hne] at htest
    exact Bool.noConfusion htest

section Exec

variable {calls : List (Call vertex_type)} {st st' : State vertex_type}

omit [DecidableEq vertex_type] in
theorem Valid.mem_partitions (h : Valid calls st) {P : Finset C_vertex} :
    P ∈ st.partitions.map (·.2) → ∃ id, P = st.partition id := by
  intro hP
  obtain ⟨⟨id, Q⟩, hmem, rfl⟩ := List.mem_map.mp hP
  refine ⟨id, ?_⟩
  rw [State.partition, (State.mem_iff_lookup h.ordered).mp hmem, Option.getD_some]

omit [DecidableEq vertex_type] in
theorem Valid.partition_mem (h : Valid calls st) {id : Nat} {C : C_vertex}
    (hC : C ∈ st.partition id) : st.partition id ∈ st.partitions.map (·.2) := by
  unfold State.partition at hC ⊢
  cases hlookup : st.partitions.lookup id with
  | none =>
    rw [hlookup] at hC
    exact absurd hC (Finset.notMem_empty C)
  | some P => exact List.mem_map.mpr ⟨(id, P), (State.mem_iff_lookup h.ordered).mpr hlookup, rfl⟩

omit [DecidableEq vertex_type] in
theorem Valid.partition_subset (h : Valid calls st) (id : Nat) :
    st.partition id ⊆ Finset.range st.vindex := by
  intro C hC
  obtain ⟨v, -, hv⟩ := (h.mem_partition id C).mp hC
  exact Finset.mem_range.mpr ((h.numbered C).mpr ⟨v, (h.v2uv_iff v C).mp hv⟩)

omit [DecidableEq vertex_type] in
/-- `exec` ends with cliques of the numbered vertices. -/
theorem Valid.exec (h : Valid calls st) {solve : List Arc → Option (Nat → Nat)}
    (hsolve : IsAssignmentSolver solve) {sort : List (Finset C_vertex) → List (Finset C_vertex)}
    (hsort : ∀ l, (sort l).Perm l)
    (sharing_cost : C_vertex → Finset C_vertex → (C_vertex → Option vertex_type) → Nat)
    (hmax : st.max_num_cols = 0 ∨ st.vindex ≤ st.max_num_cols) :
    ∃ cliques, st.exec solve sort sharing_cost = .ok { st with cliques := cliques } ∧
      Cliques (st.partitions.map (·.2)) cliques := by
  have hmem : ∀ {P}, P ∈ sort (st.partitions.map (·.2)) ↔ P ∈ st.partitions.map (·.2) :=
    (hsort _).mem_iff
  obtain ⟨pb, hpb⟩ : ∃ pb : Problem, pb =
    { solve := solve
      sharing_cost := fun v clique => sharing_cost v clique st.uv2v
      interferenceGraph := InterferenceGraph.build (sort (st.partitions.map (·.2))) } := ⟨_, rfl⟩
  have hgraph : ∀ v w, pb.interferenceGraph.test v w = true ↔
      ∃ P ∈ sort (st.partitions.map (·.2)), v ∈ P ∧ w ∈ P ∧ v ≠ w := by
    intro v w
    rw [hpb]
    exact InterferenceGraph.test_build
  obtain ⟨cols, num_cols', hrun, hplaced⟩ := attempts_spec pb (by rwa [hpb]) hgraph
    (Finset.range st.vindex)
    (fun P hP => by
      obtain ⟨id, rfl⟩ := h.mem_partitions (hmem.mp hP)
      exact h.partition_subset id)
    (hmax.imp_right fun hle => by rwa [Finset.card_range]) (st.vindex + 1) st.num_cols
    (st.cliques ++ List.replicate st.num_cols ∅)
    (fun P hP => by
      obtain ⟨id, rfl⟩ := h.mem_partitions (hmem.mp hP)
      exact h.card_le id)
    (by rw [h.cliques, List.nil_append, List.length_replicate])
    (by
      rw [h.cliques, List.nil_append]
      exact fun c hc => List.eq_of_mem_replicate hc)
    (by rw [Finset.card_range]; omega)
  have hcliques := hplaced.filter hgraph
  refine ⟨_, ?_, hcliques.nonempty, hcliques.disjoint, fun C => ?_, fun c hc P hP => ?_⟩
  · rw [hpb] at hrun
    simp only [State.exec, hrun, ok_bind]
  · rw [hcliques.mem_iff]
    exact exists_congr fun P => and_congr_left fun _ => hmem
  · exact hcliques.apart c hc P (hmem.mpr hP)

/-- The cliques in terms of the vertices that were added. -/
theorem Valid.readsBack (h : Valid calls st) {cliques : List (Finset C_vertex)}
    (hcliques : Cliques (st.partitions.map (·.2)) cliques) :
    ReadsBack (State.get_clique { st with cliques := cliques }) st.v2uv cliques := by
  refine ⟨fun {i clique} hi => ?_, fun {i c} hi => ?_⟩
  · have hknown : ∀ C ∈ clique, st.uv2v C ≠ none := by
      intro C hC
      obtain ⟨P, hP, hCP⟩ := (hcliques.mem_iff C).mp ⟨clique, List.mem_of_getElem? hi, hC⟩
      obtain ⟨id, rfl⟩ := h.mem_partitions hP
      obtain ⟨v, -, hv⟩ := (h.mem_partition id C).mp hCP
      rw [(h.v2uv_iff v C).mp hv]
      rintro ⟨⟩
    refine ⟨clique.biUnion fun C => (st.uv2v C).toFinset, ?_, fun v => ?_⟩
    · unfold State.get_clique
      simp only [hi, throwAssert_of hknown, ok_bind]
    · simp only [Finset.mem_biUnion, Option.mem_toFinset, Option.mem_def, h.v2uv_iff]
  · unfold State.get_clique
    simp only [hi]
    rintro ⟨⟩

end Exec

/-- Without a maximum of columns, or with one for each vertex, `exec` ends, and its cliques are a
partition of the vertices of the sub-partitions in which no clique has two vertices of one
sub-partition. -/
theorem exec_spec {vertex_type : Type} [DecidableEq vertex_type]
    (solve : List Arc → Option (Nat → Nat)) (hsolve : IsAssignmentSolver solve)
    (sort : List (Finset C_vertex) → List (Finset C_vertex)) (hsort : ∀ l, (sort l).Perm l)
    (sharing_cost : C_vertex → Finset C_vertex → (C_vertex → Option vertex_type) → Nat)
    (calls : List (Call vertex_type)) (st : State vertex_type)
    (hrun : calls.foldlM Call.run State.init = .ok st)
    (hmax : st.max_num_cols = 0 ∨ st.vindex ≤ st.max_num_cols) :
    ∃ st', st.exec solve sort sharing_cost = .ok st' ∧
      (∀ i < st'.num_vertices, ∃ c, st'.get_clique i = .ok c ∧ c.Nonempty) ∧
      (∀ i j c d, st'.get_clique i = .ok c → st'.get_clique j = .ok d → i ≠ j → Disjoint c d) ∧
      (∀ v, (∃ id, v ∈ members calls id) ↔
        ∃ i < st'.num_vertices, ∃ c, st'.get_clique i = .ok c ∧ v ∈ c) ∧
      (∀ i c, st'.get_clique i = .ok c → ∀ id, ∀ v ∈ c, ∀ w ∈ c,
        v ∈ members calls id → w ∈ members calls id → v = w) ∧
      ∀ id, (members calls id).card ≤ st'.num_vertices := by
  have h := valid_of_run hrun
  obtain ⟨cliques, hexec, hcliques⟩ := h.exec hsolve hsort sharing_cost hmax
  obtain ⟨st', hst'⟩ : ∃ st' : State vertex_type, st' = { st with cliques := cliques } := ⟨_, rfl⟩
  have hnum : st'.num_vertices = cliques.length := by
    rw [hst']
    rfl
  have hread : ReadsBack st'.get_clique st.v2uv cliques := by
    rw [hst']
    exact h.readsBack hcliques
  have hmember : ∀ {v id}, v ∈ members calls id ↔ ∃ C ∈ st.partition id, st.v2uv v = some C := by
    intro v id
    rw [mem_members]
    constructor
    · intro hv
      obtain ⟨C, hC⟩ := h.added id v hv
      exact ⟨C, (h.mem_partition id C).mpr ⟨v, hv, hC⟩, hC⟩
    · rintro ⟨C, hC, hv⟩
      obtain ⟨w, hw, hwC⟩ := (h.mem_partition id C).mp hC
      exact h.numbering.unique hv hwC ▸ hw
  have hcover : ∀ v, (∃ id, v ∈ members calls id) ↔
      ∃ i < st'.num_vertices, ∃ c, st'.get_clique i = .ok c ∧ v ∈ c := by
    intro v
    constructor
    · rintro ⟨id, hv⟩
      obtain ⟨C, hC, hvC⟩ := hmember.mp hv
      obtain ⟨clique, hclique, hmem⟩ :=
        (hcliques.mem_iff C).mpr ⟨_, h.partition_mem hC, hC⟩
      obtain ⟨i, hi, rfl⟩ := List.getElem_of_mem hclique
      obtain ⟨c, hc, hiff⟩ := hread.returns (List.getElem?_eq_getElem hi)
      exact ⟨i, hnum ▸ hi, c, hc, (hiff v).mpr ⟨C, hmem, hvC⟩⟩
    · rintro ⟨i, -, c, hc, hv⟩
      obtain ⟨clique, hi, hiff⟩ := hread.got hc
      obtain ⟨C, hC, hvC⟩ := (hiff v).mp hv
      obtain ⟨P, hP, hCP⟩ := (hcliques.mem_iff C).mp ⟨clique, List.mem_of_getElem? hi, hC⟩
      obtain ⟨id, rfl⟩ := h.mem_partitions hP
      exact ⟨id, hmember.mpr ⟨C, hCP, hvC⟩⟩
  have happart : ∀ i c, st'.get_clique i = .ok c → ∀ id, ∀ v ∈ c, ∀ w ∈ c,
      v ∈ members calls id → w ∈ members calls id → v = w := by
    intro i c hc id v hv w hw hvid hwid
    obtain ⟨clique, hi, hiff⟩ := hread.got hc
    obtain ⟨C, hC, hvC⟩ := (hiff v).mp hv
    obtain ⟨D, hD, hwD⟩ := (hiff w).mp hw
    obtain ⟨C', hCid, hvC'⟩ := hmember.mp hvid
    obtain ⟨D', hDid, hwD'⟩ := hmember.mp hwid
    obtain rfl : C = C' := Option.some.inj (hvC.symm.trans hvC')
    obtain rfl : D = D' := Option.some.inj (hwD.symm.trans hwD')
    obtain rfl := hcliques.apart clique (List.mem_of_getElem? hi) _ (h.partition_mem hCid) C hC D hD
      hCid hDid
    exact h.numbering.unique hvC hwD
  refine ⟨st', by rw [hst', hexec], fun i hi => ?_,
    fun i j c d hc hd hij => hread.disjoint hcliques.disjoint hc hd hij, hcover, happart,
    fun id => ?_⟩
  · rw [hnum] at hi
    obtain ⟨c, hc, hiff⟩ := hread.returns (List.getElem?_eq_getElem hi)
    obtain ⟨C, hC⟩ := hcliques.nonempty _ (List.getElem_mem hi)
    obtain ⟨P, hP, hCP⟩ := (hcliques.mem_iff C).mp ⟨_, List.getElem_mem hi, hC⟩
    obtain ⟨id, rfl⟩ := h.mem_partitions hP
    obtain ⟨v, -, hv⟩ := (h.mem_partition id C).mp hCP
    exact ⟨c, hc, v, (hiff v).mpr ⟨C, hC, hv⟩⟩
  · -- The vertices of a sub-partition are in different cliques.
    have hindex : ∀ v : vertex_type, ∃ i, v ∈ members calls id →
        i < st'.num_vertices ∧ ∃ c, st'.get_clique i = .ok c ∧ v ∈ c := by
      intro v
      by_cases hv : v ∈ members calls id
      · obtain ⟨i, hi⟩ := (hcover v).mp ⟨id, hv⟩
        exact ⟨i, fun _ => hi⟩
      · exact ⟨0, fun hmem => absurd hmem hv⟩
    choose index hindex using hindex
    have hcard : (members calls id).card ≤ (Finset.range st'.num_vertices).card := by
      refine Finset.card_le_card_of_injOn index (fun v hv => ?_) fun v hv w hw hvw => ?_
      · exact Finset.mem_coe.mpr (Finset.mem_range.mpr (hindex v hv).1)
      · obtain ⟨-, c, hc, hvc⟩ := hindex v hv
        obtain ⟨-, d, hd, hwd⟩ := hindex w hw
        rw [← hvw] at hd
        obtain rfl : c = d := Except.ok.inj (hc.symm.trans hd)
        exact happart _ c hc id v hvc w hwd hv hw
    rwa [Finset.card_range] at hcard

/-- Two sub-partitions that share a vertex. -/
def sharedCalls : List (Call Char) :=
  [.add_vertex 'a', .add_vertex 'b', .add_vertex 'c', .add_subpartitions 0 'a',
    .add_subpartitions 0 'b', .add_subpartitions 1 'b', .add_subpartitions 1 'c']

theorem exec_spec_shared :
    ∃ st st', sharedCalls.foldlM Call.run State.init = .ok st ∧
      st.exec firstMatching id (fun _ _ _ => 1) = .ok st' ∧
      ∀ i c, st'.get_clique i = .ok c → ¬ ('b' ∈ c ∧ 'c' ∈ c) := by
  obtain ⟨st', hexec, -, -, -, happart, -⟩ := exec_spec firstMatching firstMatching_solver id
    (fun l => List.Perm.refl l) (fun _ _ _ => 1) sharedCalls _ rfl (Or.inl rfl)
  refine ⟨_, st', rfl, hexec, fun i c hc h => ?_⟩
  exact absurd (happart i c hc 1 'b' h.1 'c' h.2 (by decide) (by decide)) (by decide)

end BipartiteMatching
end CliqueCovering
end Bambu
