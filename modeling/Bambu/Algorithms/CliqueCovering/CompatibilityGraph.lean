/-
  Bambu.Algorithms.CliqueCovering.CompatibilityGraph

  `cc_compatibility_graph`: the compatibility graph, filtered by a mask on the selectors of its
  edges and by a set of vertices.
-/

import Bambu.Utility.Common
import Mathlib.Data.Finset.Filter
import Mathlib.Data.Finset.Insert

namespace Bambu
namespace CliqueCovering

abbrev C_vertex := Nat

/-- An undirected edge with its descriptor. -/
structure Edge where
  id : Nat
  source : C_vertex
  target : C_vertex
  weight : Nat
  deriving DecidableEq

namespace Edge

/-- `boost::target` of an out edge of the vertex. -/
def other (e : Edge) (v : C_vertex) : C_vertex := if e.source = v then e.target else e.source

def Incident (e : Edge) (v : C_vertex) : Prop := e.source = v ∨ e.target = v

instance (e : Edge) (v : C_vertex) : Decidable (e.Incident v) :=
  inferInstanceAs (Decidable (_ ∨ _))

def Joins (e : Edge) (u v : C_vertex) : Prop :=
  (e.source = u ∧ e.target = v) ∨ (e.source = v ∧ e.target = u)

theorem Joins.symm {e : Edge} {u v : C_vertex} (h : e.Joins u v) : e.Joins v u := Or.symm h

theorem joins_iff {e : Edge} {u v : C_vertex} : e.Joins u v ↔ e.Incident u ∧ e.other u = v := by
  unfold Joins Incident other
  split <;> grind

end Edge

structure CompatibilityGraph where
  edges : List Edge
  /-- The selector of the filter. -/
  mask : Nat
  /-- The selectors of the edges, by their descriptors. -/
  selector : Nat → Nat
  support : Finset C_vertex

namespace CompatibilityGraph

variable (CG : CompatibilityGraph)

/-- `cc_compatibility_graph_edge_selector`. -/
def selected (e : Edge) : Bool := CG.mask &&& CG.selector e.id != 0

def out_edges (v : C_vertex) : List Edge :=
  CG.edges.filter fun e => (e.Incident v ∧ e.other v ∈ CG.support) ∧ CG.selected e

def adjacent_vertices (v : C_vertex) : List C_vertex := (CG.out_edges v).map fun e => e.other v

def out_degree (v : C_vertex) : Nat := (CG.out_edges v).length

/-- `g[e].selector = selector`. -/
def select (e : Edge) (selector : Nat) : CompatibilityGraph :=
  { CG with selector := Function.update CG.selector e.id selector }

/-- Two vertices with an edge that passes the filter. -/
def Adj (u v : C_vertex) : Prop := ∃ e ∈ CG.edges, e.Joins u v ∧ CG.selected e = true

/-- A set of vertices with an edge between each two. -/
def Clique (Q : Finset C_vertex) : Prop := ∀ u ∈ Q, ∀ v ∈ Q, u ≠ v → CG.Adj u v

/-- No edge is a loop. -/
def Loopless : Prop := ∀ e ∈ CG.edges, e.source ≠ e.target

variable {CG}

theorem Adj.symm {u v : C_vertex} (h : CG.Adj u v) : CG.Adj v u := by
  obtain ⟨e, he, hjoins, hsel⟩ := h
  exact ⟨e, he, hjoins.symm, hsel⟩

theorem Adj.ne (hloop : CG.Loopless) {u v : C_vertex} (h : CG.Adj u v) : u ≠ v := by
  obtain ⟨e, he, ⟨rfl, rfl⟩ | ⟨rfl, rfl⟩, -⟩ := h
  · exact hloop e he
  · exact (hloop e he).symm

theorem selected_select {e e' : Edge} :
    (CG.select e 0).selected e' = true ↔ e'.id ≠ e.id ∧ CG.selected e' = true := by
  simp only [selected, select]
  by_cases he : e'.id = e.id
  · rw [he, Function.update_self, Nat.and_zero]
    simp
  · rw [Function.update_of_ne he]
    simp [he]

theorem mem_out_edges {v : C_vertex} {e : Edge} : e ∈ CG.out_edges v ↔
    e ∈ CG.edges ∧ (e.Incident v ∧ e.other v ∈ CG.support) ∧ CG.selected e = true := by
  rw [out_edges, List.mem_filter, decide_eq_true_iff]

theorem mem_adjacent_vertices {u v : C_vertex} :
    v ∈ CG.adjacent_vertices u ↔ CG.Adj u v ∧ v ∈ CG.support := by
  rw [adjacent_vertices, List.mem_map]
  constructor
  · rintro ⟨e, he, rfl⟩
    obtain ⟨hmem, ⟨hincident, hsupport⟩, hsel⟩ := mem_out_edges.mp he
    exact ⟨⟨e, hmem, Edge.joins_iff.mpr ⟨hincident, rfl⟩, hsel⟩, hsupport⟩
  · rintro ⟨⟨e, hmem, hjoins, hsel⟩, hsupport⟩
    obtain ⟨hincident, rfl⟩ := Edge.joins_iff.mp hjoins
    exact ⟨e, mem_out_edges.mpr ⟨hmem, ⟨hincident, hsupport⟩, hsel⟩, rfl⟩

theorem Clique.insert {Q : Finset C_vertex} {q : C_vertex} (h : CG.Clique Q)
    (hq : ∀ w ∈ Q, CG.Adj w q) : CG.Clique (insert q Q) := by
  intro u hu v hv hne
  obtain rfl | hu' := Finset.mem_insert.mp hu <;> obtain rfl | hv' := Finset.mem_insert.mp hv
  · exact absurd rfl hne
  · exact (hq v hv').symm
  · exact hq u hu'
  · exact h u hu' v hv' hne

end CompatibilityGraph

/-- `filter_clique`, as far as the graph-based solvers read it: the vertex of a candidate clique
that is to be removed. -/
structure FilterClique (vertex_type : Type) where
  select_candidate_to_remove : Finset C_vertex → (C_vertex → Option vertex_type) →
    CompatibilityGraph → Option C_vertex
  is_filtering : Bool

/-- The vertex that is to be removed is one of the candidate clique. -/
def FilterClique.PicksMembers {vertex_type : Type} (fc : FilterClique vertex_type) : Prop :=
  ∀ clique converter CG v, fc.select_candidate_to_remove clique converter CG = some v → v ∈ clique

end CliqueCovering
end Bambu
