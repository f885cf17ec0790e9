/-
  Bambu.Algorithms.CliqueCovering.SeedSolver

  `TS_based_clique_covering`: a clique grows from a seed edge, while the edges of its representative
  are cut down to the common neighbours.

  The edges that have been switched off are put back after each clique.
-/

import Bambu.Algorithms.CliqueCovering.Solvers

namespace Bambu
namespace CliqueCovering
namespace TS

open Bambu.Math
open Bambu.Math.DisjointSets (Merges)

variable {vertex_type : Type}

def MAX_EDGE_CONSIDERED : Nat := 50

section Definitions

variable (S : Setting vertex_type)

def is_non_compliant (CG : CompatibilityGraph) (ds : DisjointSets C_vertex) (src tgt : C_vertex) :
    Bool :=
  S.fc.is_filtering && (S.fc.select_candidate_to_remove
    (S.all_vertices.filter fun av => ds.find_set av = src ∨ ds.find_set av = tgt)
    S.uv2v CG).isSome

/-- The best edge so far. -/
structure Best where
  h_max_neighbors : Nat
  h_min_del_edges : Nat
  src : C_vertex
  tgt : C_vertex

/-- The heuristics of `select_edge_inner`; without an edge so far the first one is taken. -/
def improve (CG : CompatibilityGraph) (source target : C_vertex) (best : Option Best) :
    Option Best :=
  let h_neighbors := ((CG.adjacent_vertices target).filter fun t =>
    t ∈ CG.adjacent_vertices source).toFinset.card
  let h_del_edges := CG.out_degree source + CG.out_degree target - h_neighbors - 1
  match best with
  | none => some ⟨h_neighbors, h_del_edges, source, target⟩
  | some b =>
    if h_neighbors > b.h_max_neighbors ∨
        (h_neighbors = b.h_max_neighbors ∧ h_del_edges < b.h_min_del_edges) then
      some ⟨h_neighbors, h_del_edges, source, target⟩
    else some b

/-- The loop over edges that calls `select_edge_inner`, with its counter. -/
def selectLoop (CG : CompatibilityGraph) (ds : DisjointSets C_vertex) :
    List (C_vertex × C_vertex) → Nat → Option Best → Option Best
  | [], _, best => best
  | (source, target) :: rest, counter, best =>
    if is_non_compliant S CG ds source target then selectLoop CG ds rest counter best
    else if counter > MAX_EDGE_CONSIDERED then improve CG source target best
    else selectLoop CG ds rest (counter + 1) (improve CG source target best)

def outPairs (CG : CompatibilityGraph) (v : C_vertex) : List (C_vertex × C_vertex) :=
  (CG.adjacent_vertices v).map fun t => (v, t)

def select_edge_start (CG : CompatibilityGraph) (ds : DisjointSets C_vertex) (source : C_vertex) :
    Option Best :=
  selectLoop S CG ds (outPairs CG source) 0 none

/-- Vertices with more edges come first. -/
def moreEdges (CG : CompatibilityGraph) (u v : C_vertex) : Bool :=
  CG.out_degree u > CG.out_degree v || (CG.out_degree u == CG.out_degree v && u > v)

def select_edge (CG : CompatibilityGraph) (ds : DisjointSets C_vertex) : Option Best :=
  let vertices_with_most_edges :=
    (S.order CG.support).mergeSort fun u v => !moreEdges CG v u
  selectLoop S CG ds ((vertices_with_most_edges.flatMap (outPairs CG)).take MAX_EDGE_CONSIDERED) 0
    none

/-- The graph, the selectors that have been removed and the sets. -/
structure State where
  CG : CompatibilityGraph
  removed_edges : Nat → Option Nat
  ds : DisjointSets C_vertex

/-- Edges of a vertex that do not lead to a common neighbour are switched off.  The iterator passes
over edges that are off already. -/
def removeEdges (v keep : C_vertex) (neighbors : List C_vertex) (st : State) : State :=
  (st.CG.out_edges v).foldl (fun st e =>
    if st.CG.selected e = false ∨ e.other v = keep ∨ e.other v ∈ neighbors then st
    else { st with
      CG := st.CG.select e 0
      removed_edges := Function.update st.removed_edges e.id (some (st.CG.selector e.id)) }) st

/-- The loop that adds one vertex after the other to the clique: the last representative. -/
def grow : Nat → C_vertex → C_vertex → State → Except Error (C_vertex × State)
  | 0, _, _, _ => .error .outOfFuel
  | fuel + 1, src, tgt, st =>
    let neighbors_src := st.CG.adjacent_vertices src
    let neighbors_tgt := st.CG.adjacent_vertices tgt
    let st := removeEdges tgt src neighbors_src (removeEdges src tgt neighbors_tgt st)
    let ds := st.ds.union_set src tgt
    let rep := ds.find_set src
    if rep ≠ src ∧ rep ≠ tgt then .error (.assertion "unexpected condition")
    else
      let (src, tgt) := if rep ≠ src then (tgt, src) else (src, tgt)
      if tgt ∈ st.CG.support then
        let st := { st with
          CG := { st.CG with support := st.CG.support.erase tgt }
          ds := ds }
        match select_edge_start S st.CG st.ds src with
        | some best => grow fuel src best.tgt st
        | none => .ok (src, st)
      else .error (.assertion "unexpected condition")

/-- The selectors that have been removed are put back. -/
def restore (st : State) : Nat → Nat := fun e => (st.removed_edges e).getD (st.CG.selector e)

/-- The loop over the cliques. -/
def coverLoop : Nat → CompatibilityGraph → DisjointSets C_vertex →
    Except Error (CompatibilityGraph × DisjointSets C_vertex)
  | 0, CG, ds => if CG.support.card > 1 then .error .outOfFuel else .ok (CG, ds)
  | fuel + 1, CG, ds =>
    if CG.support.card > 1 then
      match select_edge S CG ds with
      | none => .ok (CG, ds)
      | some best =>
        (grow S CG.support.card best.src best.tgt ⟨CG, fun _ => none, ds⟩).bind fun (src, st) =>
          if src ∈ st.CG.support then
            coverLoop fuel (TTT.dropIsolated S { st.CG with
              support := st.CG.support.erase src
              selector := restore st }) st.ds
          else .error (.assertion "unexpected condition")
    else .ok (CG, ds)

end Definitions

def do_clique_covering : Solver vertex_type := fun S CG ds =>
  (coverLoop S CG.support.card CG ds).map fun r =>
    ({ r.1 with support := r.1.support ∪ CG.support }, r.2)

/-! ## The choice of an edge -/

section Choice

variable {S : Setting vertex_type} {CG : CompatibilityGraph} {ds : DisjointSets C_vertex}

theorem improve_cases (CG : CompatibilityGraph) (source target : C_vertex) (best : Option Best) :
    improve CG source target best = best ∨
      ∃ b, improve CG source target best = some b ∧ (b.src, b.tgt) = (source, target) := by
  unfold improve
  cases best with
  | none => exact Or.inr ⟨_, rfl, rfl⟩
  | some b =>
    simp only
    split
    · exact Or.inr ⟨_, rfl, rfl⟩
    · exact Or.inl rfl

theorem selectLoop_mem {edges : List (C_vertex × C_vertex)} {counter : Nat}
    {best : Option Best} {b : Best} (h : selectLoop S CG ds edges counter best = some b) :
    best = some b ∨ (b.src, b.tgt) ∈ edges := by
  induction edges generalizing counter best with
  | nil => exact Or.inl h
  | cons p edges ih =>
    obtain ⟨source, target⟩ := p
    have himprove : improve CG source target best = some b →
        best = some b ∨ (b.src, b.tgt) ∈ (source, target) :: edges := by
      intro hb
      obtain heq | ⟨b', heq, hpair⟩ := improve_cases CG source target best
      · exact Or.inl (heq ▸ hb)
      · rw [heq] at hb
        cases hb
        exact Or.inr (hpair ▸ List.mem_cons_self)
    rw [selectLoop] at h
    split at h
    · exact (ih h).imp_right (List.mem_cons_of_mem _)
    · split at h
      · exact himprove h
      · obtain hb | hmem := ih h
        · exact himprove hb
        · exact Or.inr (List.mem_cons_of_mem _ hmem)

theorem select_edge_start_spec {source : C_vertex} {b : Best}
    (h : select_edge_start S CG ds source = some b) :
    b.src = source ∧ CG.Adj source b.tgt ∧ b.tgt ∈ CG.support := by
  obtain hnone | hmem := selectLoop_mem h
  · cases hnone
  · obtain ⟨t, ht, hpair⟩ := List.mem_map.mp hmem
    obtain ⟨hsrc, htgt⟩ := Prod.mk.inj hpair
    rw [← htgt]
    exact ⟨hsrc.symm, CompatibilityGraph.mem_adjacent_vertices.mp ht⟩

theorem select_edge_spec {b : Best} (h : select_edge S CG ds = some b) :
    b.src ∈ CG.support ∧ CG.Adj b.src b.tgt ∧ b.tgt ∈ CG.support := by
  obtain hnone | hmem := selectLoop_mem h
  · cases hnone
  · obtain ⟨v, hv, hpair⟩ := List.mem_flatMap.mp (List.mem_of_mem_take hmem)
    obtain ⟨t, ht, hpair⟩ := List.mem_map.mp hpair
    obtain ⟨hsrc, htgt⟩ := Prod.mk.inj hpair
    rw [← hsrc, ← htgt]
    rw [List.mem_mergeSort, S.mem_order] at hv
    exact ⟨hv, CompatibilityGraph.mem_adjacent_vertices.mp ht⟩

end Choice

/-! ## Edges that are switched off -/

section Removal

variable {G : CompatibilityGraph} {st st' : State} {v keep : C_vertex} {neighbors : List C_vertex}

/-- The graph is the one of the start, up to edges that have been switched off and recorded, and up
to vertices. -/
structure Cut (G : CompatibilityGraph) (st : State) : Prop where
  edges : st.CG.edges = G.edges
  mask : st.CG.mask = G.mask
  restore : restore st = G.selector
  zero : ∀ i, st.removed_edges i ≠ none → st.CG.selector i = 0

theorem Cut.selected (h : Cut G st) {e : Edge} (he : st.CG.selected e = true) :
    st.removed_edges e.id = none ∧ G.selected e = true := by
  cases hremoved : st.removed_edges e.id with
  | none =>
    have hsel : G.selector e.id = st.CG.selector e.id := by
      rw [← h.restore, TS.restore, hremoved, Option.getD_none]
    refine ⟨rfl, ?_⟩
    rwa [CompatibilityGraph.selected, hsel, ← h.mask]
  | some i =>
    have hzero := h.zero e.id (by rw [hremoved]; exact Option.some_ne_none i)
    rw [CompatibilityGraph.selected, hzero, Nat.and_zero] at he
    cases he

theorem Cut.adj (h : Cut G st) {x y : C_vertex} (hxy : st.CG.Adj x y) : G.Adj x y := by
  obtain ⟨e, he, hjoins, hsel⟩ := hxy
  exact ⟨e, h.edges ▸ he, hjoins, (h.selected hsel).2⟩

/-- One more edge is switched off. -/
theorem Cut.remove (h : Cut G st) {e : Edge} (he : st.CG.selected e = true) :
    Cut G { st with
      CG := st.CG.select e 0
      removed_edges := Function.update st.removed_edges e.id (some (st.CG.selector e.id)) } := by
  obtain ⟨hnone, -⟩ := h.selected he
  refine ⟨h.edges, h.mask, funext fun i => ?_, fun i hi => ?_⟩
  · rw [← h.restore]
    simp only [TS.restore, CompatibilityGraph.select]
    by_cases hie : i = e.id
    · subst hie
      rw [Function.update_self, Function.update_self, hnone]
      rfl
    · rw [Function.update_of_ne hie, Function.update_of_ne hie]
  · simp only [CompatibilityGraph.select]
    by_cases hie : i = e.id
    · subst hie
      exact Function.update_self _ _ _
    · rw [Function.update_of_ne hie]
      refine h.zero i fun hnone => hi ?_
      exact (Function.update_of_ne hie _ _).trans hnone

/-- Fewer edges pass the filter, and the rest is as before. -/
structure Less (st st' : State) : Prop where
  edges : st'.CG.edges = st.CG.edges
  support : st'.CG.support = st.CG.support
  ds : st'.ds = st.ds
  selected : ∀ e, st'.CG.selected e = true → st.CG.selected e = true

theorem Less.refl (st : State) : Less st st := ⟨rfl, rfl, rfl, fun _ => id⟩

theorem Less.trans {st'' : State} (h : Less st st') (h' : Less st' st'') : Less st st'' :=
  ⟨h'.edges.trans h.edges, h'.support.trans h.support, h'.ds.trans h.ds,
    fun e he => h.selected e (h'.selected e he)⟩

theorem Less.adj (h : Less st st') {x y : C_vertex} (hxy : st'.CG.Adj x y) : st.CG.Adj x y := by
  obtain ⟨e, he, hjoins, hsel⟩ := hxy
  exact ⟨e, h.edges ▸ he, hjoins, h.selected e hsel⟩

/-- Afterwards the vertex leads to the other end of the merge and to common neighbours only. -/
theorem removeEdges_spec (v keep : C_vertex) (neighbors : List C_vertex) (h : Cut G st) :
    Cut G (removeEdges v keep neighbors st) ∧
    Less st (removeEdges v keep neighbors st) ∧
      ∀ x ∈ st.CG.support, (removeEdges v keep neighbors st).CG.Adj v x →
        x = keep ∨ x ∈ neighbors := by
  obtain ⟨f, hf⟩ : ∃ f : State → Edge → State, f = fun st e =>
    if st.CG.selected e = false ∨ e.other v = keep ∨ e.other v ∈ neighbors then st
    else { st with
      CG := st.CG.select e 0
      removed_edges := Function.update st.removed_edges e.id (some (st.CG.selector e.id)) } :=
    ⟨_, rfl⟩
  have hstep : ∀ st e, Less st (f st e) ∧ ((f st e).CG.selected e = true →
      e.other v = keep ∨ e.other v ∈ neighbors) := by
    intro st e
    rw [hf]
    simp only
    split
    case isTrue hkeep =>
      refine ⟨Less.refl st, fun hsel => ?_⟩
      obtain hoff | hkeep := hkeep
      · rw [hsel] at hoff
        cases hoff
      · exact hkeep
    case isFalse =>
      refine ⟨⟨rfl, rfl, rfl, fun e' he' => (CompatibilityGraph.selected_select.mp he').2⟩,
        fun he => ?_⟩
      exact absurd rfl (CompatibilityGraph.selected_select.mp he).1
  have hcut : ∀ st e, Cut G st → Cut G (f st e) := by
    intro st e hcut
    rw [hf]
    simp only
    split
    case isTrue => exact hcut
    case isFalse hkeep =>
      rw [not_or, Bool.not_eq_false] at hkeep
      exact hcut.remove hkeep.1
  have hloop : ∀ (l : List Edge) (st : State), Cut G st → Cut G (l.foldl f st) ∧
      Less st (l.foldl f st) ∧ ∀ e ∈ l, (l.foldl f st).CG.selected e = true →
        e.other v = keep ∨ e.other v ∈ neighbors := by
    intro l
    induction l with
    | nil => exact fun st h => ⟨h, Less.refl st, fun e he => absurd he List.not_mem_nil⟩
    | cons e l ih =>
      intro st h
      obtain ⟨hless, hkeep⟩ := hstep st e
      obtain ⟨hcut', hless', hrest⟩ := ih (f st e) (hcut st e h)
      refine ⟨hcut', hless.trans hless', fun e' he' hsel => ?_⟩
      obtain rfl | he' := List.mem_cons.mp he'
      · exact hkeep (hless'.selected _ hsel)
      · exact hrest e' he' hsel
  obtain ⟨hcut', hless, hkeep⟩ := hloop (st.CG.out_edges v) st h
  rw [hf] at hcut' hless hkeep
  refine ⟨hcut', hless, fun x hx hadj => ?_⟩
  obtain ⟨e, he, hjoins, hsel⟩ := hadj
  obtain ⟨hincident, rfl⟩ := Edge.joins_iff.mp hjoins
  refine hkeep e (CompatibilityGraph.mem_out_edges.mpr ⟨?_, ⟨hincident, hx⟩, ?_⟩) hsel
  · rw [← hless.edges]
    exact he
  · exact hless.selected e hsel

end Removal

/-! ## One clique -/

section Grow

variable {S : Setting vertex_type} {G : CompatibilityGraph} {ds₀ : DisjointSets C_vertex}

/-- While a clique grows: its members are adjacent to what its representative is adjacent to, and
the other vertices have not been merged. -/
structure Growing (G : CompatibilityGraph) (ds₀ : DisjointSets C_vertex) (src : C_vertex)
    (st : State) : Prop where
  cut : Cut G st
  support : st.CG.support ⊆ G.support
  src_mem : src ∈ st.CG.support
  merges : Merges G.Adj G.support ds₀ st.ds
  root : st.ds.find_set src = src
  single : TTT.Single G.support (st.CG.support.erase src) st.ds
  group : ∀ k ∈ G.support, st.ds.Same k src → ∀ x ∈ st.CG.support, st.CG.Adj src x →
    k = x ∨ G.Adj k x

/-- A neighbour of the representative is added. -/
theorem Growing.add (hloop : G.Loopless) {src tgt : C_vertex} {st st' : State}
    (h : Growing G ds₀ src st) (htgt : tgt ∈ st.CG.support) (hadj : st.CG.Adj src tgt)
    (hcut : Cut G st') (hless : Less st st')
    (hsrc : ∀ x ∈ st.CG.support, st'.CG.Adj src x → x = tgt ∨ st.CG.Adj tgt x)
    (htgtAdj : ∀ x ∈ st.CG.support, st'.CG.Adj tgt x → x = src ∨ st.CG.Adj src x)
    {rep other : C_vertex} (hrep : (rep = src ∧ other = tgt) ∨ (rep = tgt ∧ other = src))
    (hfind : (st.ds.union_set src tgt).find_set rep = rep) :
    Growing G ds₀ rep { st' with
      CG := { st'.CG with support := st'.CG.support.erase other }
      ds := st.ds.union_set src tgt } := by
  have hne : src ≠ tgt := (h.cut.adj hadj).ne hloop
  have hsrcG := h.support h.src_mem
  have htgtG := h.support htgt
  have htgtSingle : ∀ s ∈ G.support, st.ds.Same s tgt → s = tgt :=
    h.single tgt (Finset.mem_erase.mpr ⟨hne.symm, htgt⟩)
  have hmem : ∀ {x}, x ∈ st'.CG.support.erase other ↔ x ≠ other ∧ x ∈ st.CG.support := by
    intro x
    rw [hless.support, Finset.mem_erase]
  have hrepMem : rep ∈ st.CG.support ∧ rep ≠ other := by
    obtain ⟨rfl, rfl⟩ | ⟨rfl, rfl⟩ := hrep
    · exact ⟨h.src_mem, hne⟩
    · exact ⟨htgt, hne.symm⟩
  have hunion : Merges G.Adj G.support ds₀ (st.ds.union_set src tgt) := by
    refine h.merges.union_set (fun _ _ => CompatibilityGraph.Adj.symm) hsrcG htgtG
      fun s hs t ht hss htt => ?_
    obtain rfl := htgtSingle t ht htt
    exact h.group s hs hss t htgt hadj
  have hrepSame : ∀ {k}, (st.ds.union_set src tgt).Same k rep →
    st.ds.Same k src ∨ st.ds.Same k tgt := by
    intro k hk
    obtain ⟨rfl, rfl⟩ | ⟨rfl, rfl⟩ := hrep <;> obtain hold | ⟨hk, -⟩ :=
      DisjointSets.same_union_set.mp hk
    · exact Or.inl hold
    · exact hk
    · exact Or.inr hold
    · exact hk
  refine ⟨⟨hcut.edges, hcut.mask, hcut.restore, hcut.zero⟩, fun x hx => h.support (hmem.mp hx).2,
    hmem.mpr ⟨hrepMem.2, hrepMem.1⟩, hunion, hfind, ?_, ?_⟩
  · intro v hv s hs hsame
    obtain ⟨hvrep, hv⟩ := Finset.mem_erase.mp hv
    obtain ⟨hvother, hv⟩ := hmem.mp hv
    have hvsrc : v ≠ src ∧ v ≠ tgt := by
      obtain ⟨rfl, rfl⟩ | ⟨rfl, rfl⟩ := hrep
      · exact ⟨hvrep, hvother⟩
      · exact ⟨hvother, hvrep⟩
    have hvSingle := h.single v (Finset.mem_erase.mpr ⟨hvsrc.1, hv⟩)
    obtain hold | ⟨-, hvs | hvt⟩ := DisjointSets.same_union_set.mp hsame
    · exact hvSingle s hs hold
    · exact absurd (hvSingle src hsrcG hvs.symm).symm hvsrc.1
    · exact absurd (hvSingle tgt htgtG hvt.symm).symm hvsrc.2
  · intro k hk hsame x hmem' hx'
    obtain ⟨hxother, hx⟩ := hmem.mp hmem'
    -- What the representative still leads to, both ends of the merge have led to.
    have hboth : st.CG.Adj src x ∧ st.CG.Adj tgt x := by
      have hxrep : x ≠ rep := (CompatibilityGraph.Adj.ne hloop (hcut.adj hx')).symm
      obtain ⟨rfl, rfl⟩ | ⟨rfl, rfl⟩ := hrep
      · obtain hxt | hxt := hsrc x hx hx'
        · exact absurd hxt hxother
        · exact ⟨hless.adj hx', hxt⟩
      · obtain hxs | hxs := htgtAdj x hx hx'
        · exact absurd hxs hxother
        · exact ⟨hxs, hless.adj hx'⟩
    obtain hks | hkt := hrepSame hsame
    · exact h.group k hk hks x hx hboth.1
    · obtain rfl := htgtSingle k hk hkt
      exact Or.inr (h.cut.adj hboth.2)

theorem grow_spec (hloop : G.Loopless) (fuel : Nat) : ∀ src tgt st, st.CG.support.card ≤ fuel →
    Growing G ds₀ src st → tgt ∈ st.CG.support → st.CG.Adj src tgt →
      ∃ src' st', grow S fuel src tgt st = .ok (src', st') ∧ Growing G ds₀ src' st' ∧
        st'.CG.support.card < st.CG.support.card := by
  induction fuel with
  | zero =>
    intro src tgt st hcard _ htgt _
    exact absurd (Finset.card_pos.mpr ⟨tgt, htgt⟩) (by omega)
  | succ fuel ih =>
    intro src tgt st hcard h htgt hadj
    have hne : src ≠ tgt := (h.cut.adj hadj).ne hloop
    rw [grow]
    obtain ⟨st₁, hst₁⟩ : ∃ st₁, st₁ = removeEdges src tgt (st.CG.adjacent_vertices tgt) st :=
      ⟨_, rfl⟩
    obtain ⟨st₂, hst₂⟩ : ∃ st₂, st₂ = removeEdges tgt src (st.CG.adjacent_vertices src) st₁ :=
      ⟨_, rfl⟩
    simp only [← hst₁, ← hst₂]
    obtain ⟨hcut₁, hless₁, hsrc₁⟩ := removeEdges_spec src tgt (st.CG.adjacent_vertices tgt) h.cut
    rw [← hst₁] at hcut₁ hless₁ hsrc₁
    obtain ⟨hcut₂, hless₂, htgt₂⟩ := removeEdges_spec tgt src (st.CG.adjacent_vertices src) hcut₁
    rw [← hst₂] at hcut₂ hless₂ htgt₂
    have hless := hless₁.trans hless₂
    have hsrc : ∀ x ∈ st.CG.support, st₂.CG.Adj src x → x = tgt ∨ st.CG.Adj tgt x := by
      intro x hx hadj'
      refine (hsrc₁ x hx (hless₂.adj hadj')).imp_right fun hmem => ?_
      exact (CompatibilityGraph.mem_adjacent_vertices.mp hmem).1
    have htgt' : ∀ x ∈ st.CG.support, st₂.CG.Adj tgt x → x = src ∨ st.CG.Adj src x := by
      intro x hx hadj'
      refine (htgt₂ x (hless₁.support ▸ hx) hadj').imp_right fun hmem => ?_
      exact (CompatibilityGraph.mem_adjacent_vertices.mp hmem).1
    have hroot : st.ds.find_set tgt = tgt :=
      h.single tgt (Finset.mem_erase.mpr ⟨hne.symm, htgt⟩) _
        (h.merges.mem tgt (h.support htgt)) (h.merges.flat tgt)
    obtain ⟨r, hr, hfind⟩ := st.ds.find_union_set src tgt
    rw [h.root, hroot] at hr
    have hfindSrc : (st.ds.union_set src tgt).find_set src = r := by
      rw [hfind, if_pos (Or.inl rfl)]
    have hfindTgt : (st.ds.union_set src tgt).find_set tgt = r := by
      rw [hfind, if_pos (Or.inr rfl)]
    -- The loop goes on from the representative, unless no edge is selected.
    have hgo : ∀ {rep other}, (rep = src ∧ other = tgt) ∨ (rep = tgt ∧ other = src) →
        (st.ds.union_set src tgt).find_set rep = rep → ∃ src' st',
          (if other ∈ st₂.CG.support then
            match select_edge_start S { st₂.CG with support := st₂.CG.support.erase other }
              (st.ds.union_set src tgt) rep with
            | some best => grow S fuel rep best.tgt { st₂ with
                CG := { st₂.CG with support := st₂.CG.support.erase other }
                ds := st.ds.union_set src tgt }
            | none => .ok (rep, { st₂ with
                CG := { st₂.CG with support := st₂.CG.support.erase other }
                ds := st.ds.union_set src tgt })
          else .error (.assertion "unexpected condition")) = .ok (src', st') ∧
            Growing G ds₀ src' st' ∧ st'.CG.support.card < st.CG.support.card := by
      intro rep other hrep hfindRep
      have hgrowing := h.add hloop htgt hadj hcut₂ hless hsrc htgt' hrep hfindRep
      have hother : other ∈ st₂.CG.support := by
        rw [hless.support]
        obtain ⟨-, rfl⟩ | ⟨-, rfl⟩ := hrep
        · exact htgt
        · exact h.src_mem
      have hlt : (st₂.CG.support.erase other).card < st.CG.support.card := by
        rw [← hless.support]
        exact Finset.card_erase_lt_of_mem hother
      rw [if_pos hother]
      split
      case h_1 best hbest =>
        obtain ⟨-, hadj', hmem'⟩ := select_edge_start_spec hbest
        obtain ⟨src', st', hrun, hgrowing', hlt'⟩ :=
          ih rep best.tgt _ (by simp only; omega) hgrowing hmem' hadj'
        exact ⟨src', st', hrun, hgrowing', hlt'.trans hlt⟩
      case h_2 => exact ⟨rep, _, rfl, hgrowing, hlt⟩
    rw [hless.ds, hfindSrc]
    obtain rfl | rfl := hr
    · rw [if_neg fun hnot => hnot.1 rfl, if_neg (not_not.mpr rfl)]
      exact hgo (Or.inl ⟨rfl, rfl⟩) hfindSrc
    · rw [if_neg fun hnot => hnot.2 rfl, if_pos hne.symm]
      exact hgo (Or.inr ⟨rfl, rfl⟩) hfindTgt

end Grow

/-! ## All cliques -/

theorem coverLoop_spec {S : Setting vertex_type} {G : CompatibilityGraph}
    {ds₀ : DisjointSets C_vertex} (hloop : G.Loopless) (fuel : Nat) :
    ∀ support ds, support.card ≤ fuel → support ⊆ G.support → Merges G.Adj G.support ds₀ ds →
      TTT.Single G.support support ds →
        ∃ r, coverLoop S fuel { G with support := support } ds = .ok r ∧
          (∃ support' ⊆ G.support, r.1 = { G with support := support' }) ∧
            Merges G.Adj G.support ds₀ r.2 := by
  induction fuel with
  | zero =>
    intro support ds hcard hsub h _
    refine ⟨({ G with support := support }, ds), ?_, ⟨support, hsub, rfl⟩, h⟩
    rw [coverLoop, if_neg (by simp only; omega)]
  | succ fuel ih =>
    intro support ds hcard hsub h hsingle
    rw [coverLoop]
    split
    case isFalse => exact ⟨_, rfl, ⟨support, hsub, rfl⟩, h⟩
    case isTrue =>
      cases hedge : select_edge S { G with support := support } ds with
      | none => exact ⟨_, rfl, ⟨support, hsub, rfl⟩, h⟩
      | some best =>
        obtain ⟨hsrc, hadj, htgt⟩ := select_edge_spec hedge
        have hgrowing : Growing G ds₀ best.src
            ⟨{ G with support := support }, fun _ => none, ds⟩ := by
          refine ⟨⟨rfl, rfl, rfl, fun _ hnone => absurd rfl hnone⟩, hsub, hsrc, h, ?_, ?_, ?_⟩
          · exact hsingle _ hsrc _ (h.mem _ (hsub hsrc)) (h.flat _)
          · exact fun v hv => hsingle v (Finset.mem_of_mem_erase hv)
          · intro k hk hsame x _ hx
            obtain rfl := hsingle _ hsrc k hk hsame
            exact Or.inr hx
        obtain ⟨src, st, hrun, hst, hlt⟩ :=
          grow_spec (S := S) hloop support.card _ best.tgt _ (Nat.le_refl _) hgrowing htgt hadj
        simp only [hrun, Except.bind, if_pos hst.src_mem]
        have hgraph : ({ st.CG with
            support := st.CG.support.erase src
            selector := restore st } : CompatibilityGraph) =
              { G with support := st.CG.support.erase src } := by
          simp only [hst.cut.restore, hst.cut.edges, hst.cut.mask]
        rw [hgraph]
        obtain ⟨support', hsub', hdrop⟩ :=
          TTT.dropIsolated_spec S { G with support := st.CG.support.erase src }
        rw [hdrop]
        have hle := Finset.card_le_card hsub'
        have herase := Finset.card_erase_lt_of_mem hst.src_mem
        simp only at hlt hle
        exact ih support' st.ds (by omega)
          (hsub'.trans ((Finset.erase_subset _ _).trans hst.support)) hst.merges
          fun v hv => hst.single v (hsub' hv)

theorem do_clique_covering_correct : (do_clique_covering : Solver vertex_type).Correct := by
  intro S CG ds hready
  obtain ⟨r, hrun, ⟨support, hsub, hgraph⟩, hmerges⟩ := coverLoop_spec (S := S) hready.loopless
    CG.support.card CG.support ds (Nat.le_refl _) (Finset.Subset.refl _)
    (Merges.refl hready.flat hready.root) fun v hv s hs hsame => by
      rwa [DisjointSets.Same, hready.root s hs, hready.root v hv] at hsame
  refine Meets.of_eq
    (r := ({ r.1 with support := r.1.support ∪ CG.support }, r.2)) ?_ ⟨?_, hmerges⟩
  · rw [do_clique_covering, hrun]
    rfl
  · simp only [hgraph, Finset.union_eq_right.mpr hsub]

end TS

/-- `TS_based_clique_covering`. -/
def TS_based_clique_covering : Solver vertex_type := TS.do_clique_covering

end CliqueCovering
end Bambu
