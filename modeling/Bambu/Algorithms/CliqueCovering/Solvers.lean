/-
  Bambu.Algorithms.CliqueCovering.Solvers

  `do_clique_covering` of the solvers by coloring and by maximal cliques: each merges vertices of
  the filtered graph that are adjacent.
-/

import Bambu.Math.DisjointSets
import Bambu.Math.Outcome
import Bambu.Algorithms.CliqueCovering.Dsatur2Coloring
import Bambu.Algorithms.CliqueCovering.MaximalClique
import Mathlib.Data.Finset.Sort

namespace Bambu
namespace CliqueCovering

open Bambu.Math
open Bambu.Math.DisjointSets (Merges)

variable {vertex_type : Type}

/-- What the solvers read besides the graph.  The order in which an unordered set is gone through,
and that of a heap behind its first element, are not specified. -/
structure Setting (vertex_type : Type) where
  all_vertices : Finset C_vertex
  uv2v : C_vertex → Option vertex_type
  fc : FilterClique vertex_type
  order : Finset C_vertex → List C_vertex
  mem_order : ∀ s v, v ∈ order s ↔ v ∈ s
  make_heap : (Nat → Nat → Bool) → List Nat → List Nat
  make_heap_perm : ∀ cmp l, (make_heap cmp l).Perm l

/-- `do_clique_covering`, with the graph that it leaves. -/
abbrev Solver (vertex_type : Type) :=
  Setting vertex_type → CompatibilityGraph → DisjointSets C_vertex →
    Except Error (CompatibilityGraph × DisjointSets C_vertex)

/-- Each vertex of the graph represents its set. -/
structure Ready (CG : CompatibilityGraph) (ds : DisjointSets C_vertex) : Prop where
  flat : ds.Flat
  root : ∀ s ∈ CG.support, ds.find_set s = s
  loopless : CG.Loopless

/-- The graph is as before, and what has been merged is adjacent. -/
structure Covers (CG : CompatibilityGraph) (ds : DisjointSets C_vertex)
    (r : CompatibilityGraph × DisjointSets C_vertex) : Prop where
  graph : r.1 = CG
  merges : Merges CG.Adj CG.support ds r.2

/-- A solver returns for filters that pick members, and for any filter what it returns covers. -/
def Solver.Correct (solve : Solver vertex_type) : Prop :=
  ∀ S CG ds, Ready CG ds → Meets S.fc.PicksMembers (solve S CG ds) (Covers CG ds)

/-! ## By coloring -/

namespace Coloring

/-- The conflict graph: the vertices by their indices, with an edge where the graph has none. -/
def conflict_graph (CG : CompatibilityGraph) (reverse_map : List C_vertex) : ConflictGraph where
  num_node := reverse_map.length
  edges := reverse_map.zipIdx.flatMap fun (u, i) =>
    (reverse_map.zipIdx.filter fun (v, _) => ¬ u > v ∧ v ∉ CG.adjacent_vertices u).map
      fun (_, j) => (i, j)

/-- The first vertex of each color is merged with the others. -/
def mergeColors (reverse_map : List C_vertex) (color : Nat → Nat) :
    List (C_vertex × Nat) → (Nat → Option Nat) → DisjointSets C_vertex → DisjointSets C_vertex
  | [], _, ds => ds
  | (u, i) :: rest, colors, ds =>
    match colors (color i) with
    | none => mergeColors reverse_map color rest (Function.update colors (color i) (some i)) ds
    | some c => mergeColors reverse_map color rest colors
        (ds.union_set u (reverse_map[c]?.getD 0))

def do_clique_covering : Solver vertex_type := fun S CG ds =>
  let reverse_map := CG.support.sort (· ≤ ·)
  let color := (Dsatur2.dsatur2_coloring (conflict_graph CG reverse_map) S.make_heap).2
  .ok (CG, mergeColors reverse_map color reverse_map.zipIdx (fun _ => none) ds)

variable {CG : CompatibilityGraph} {reverse_map : List C_vertex} {color : Nat → Nat}
  {ds ds₀ : DisjointSets C_vertex}

/-- Indices without an edge are those of adjacent vertices. -/
theorem conflict_graph_adj {u v i j : Nat} (hu : reverse_map[i]? = some u)
    (hv : reverse_map[j]? = some v) (h : ¬ CG.Adj u v) :
    (conflict_graph CG reverse_map).Adj i j := by
  have hedge : ∀ {u v i j : Nat}, reverse_map[i]? = some u → reverse_map[j]? = some v → u ≤ v →
      v ∉ CG.adjacent_vertices u → (i, j) ∈ (conflict_graph CG reverse_map).edges := by
    intro u v i j hu hv hle hadj
    refine List.mem_flatMap.mpr ⟨(u, i), List.mem_zipIdx_iff_getElem?.mpr hu, ?_⟩
    refine List.mem_map.mpr ⟨(v, j), List.mem_filter.mpr ⟨List.mem_zipIdx_iff_getElem?.mpr hv, ?_⟩,
      rfl⟩
    exact decide_eq_true ⟨Nat.not_lt_of_le hle, hadj⟩
  obtain hle | hle := Nat.le_total u v
  · exact Or.inl (hedge hu hv hle fun hadj =>
      h (CompatibilityGraph.mem_adjacent_vertices.mp hadj).1)
  · exact Or.inr (hedge hv hu hle fun hadj =>
      h (CompatibilityGraph.mem_adjacent_vertices.mp hadj).1.symm)

/-- Only vertices of one color are merged. -/
theorem mergeColors_merges {S : Finset C_vertex} (col : C_vertex → Nat)
    (hcol : ∀ v i, reverse_map[i]? = some v → v ∈ S ∧ col v = color i) :
    ∀ rest colors ds, (∀ v i, (v, i) ∈ rest → reverse_map[i]? = some v) →
      (∀ c k, colors c = some k → color k = c ∧ ∃ w, reverse_map[k]? = some w) →
        Merges (fun s t => col s = col t) S ds₀ ds →
          Merges (fun s t => col s = col t) S ds₀
            (mergeColors reverse_map color rest colors ds) := by
  intro rest
  induction rest with
  | nil => exact fun _ _ _ _ h => h
  | cons p rest ih =>
    obtain ⟨u, i⟩ := p
    intro colors ds hrest hcolors h
    have hu := hrest u i List.mem_cons_self
    have htail : ∀ v i, (v, i) ∈ rest → reverse_map[i]? = some v :=
      fun v i hv => hrest v i (List.mem_cons_of_mem _ hv)
    rw [mergeColors]
    cases hc : colors (color i) with
    | none =>
      refine ih _ ds htail (fun c k hk => ?_) h
      by_cases hci : c = color i
      · subst hci
        rw [Function.update_self] at hk
        cases hk
        exact ⟨rfl, u, hu⟩
      · rw [Function.update_of_ne hci] at hk
        exact hcolors c k hk
    | some k =>
      obtain ⟨hk, w, hw⟩ := hcolors _ k hc
      obtain ⟨huS, hucol⟩ := hcol u i hu
      obtain ⟨hwS, hwcol⟩ := hcol w k hw
      refine ih colors _ htail hcolors ?_
      rw [hw, Option.getD_some]
      refine h.union_set (fun _ _ => Eq.symm) huS hwS fun s hs t ht hsu htw => Or.inr ?_
      have hs' : col s = col u := by
        obtain rfl | heq := h.related s hs u huS hsu
        · rfl
        · exact heq
      have ht' : col t = col w := by
        obtain rfl | heq := h.related t ht w hwS htw
        · rfl
        · exact heq
      rw [hs', ht', hucol, hwcol, hk]

theorem do_clique_covering_correct : (do_clique_covering : Solver vertex_type).Correct := by
  intro S CG ds hready
  obtain ⟨reverse_map, hmap⟩ : ∃ l, l = CG.support.sort (· ≤ ·) := ⟨_, rfl⟩
  obtain ⟨color, hcolor⟩ : ∃ color, color =
    (Dsatur2.dsatur2_coloring (conflict_graph CG reverse_map) S.make_heap).2 := ⟨_, rfl⟩
  unfold do_clique_covering
  simp only [← hmap, ← hcolor]
  refine Meets.ok ⟨rfl, ?_⟩
  have hnodup : reverse_map.Nodup := hmap ▸ Finset.sort_nodup _ _
  have hmem : ∀ {v}, v ∈ reverse_map ↔ v ∈ CG.support := by
    intro v
    rw [hmap, Finset.mem_sort]
  have hget : ∀ {v}, v ∈ CG.support → reverse_map[reverse_map.idxOf v]? = some v := by
    intro v hv
    have hlt := List.idxOf_lt_length_iff.mpr (hmem.mpr hv)
    rw [List.getElem?_eq_getElem hlt, List.getElem_idxOf]
  have hcol : ∀ v i, reverse_map[i]? = some v →
      v ∈ CG.support ∧ color (reverse_map.idxOf v) = color i := by
    intro v i hi
    obtain ⟨hlt, rfl⟩ := List.getElem?_eq_some_iff.mp hi
    exact ⟨hmem.mp (List.getElem_mem hlt), by rw [hnodup.idxOf_getElem]⟩
  have hmerges := mergeColors_merges (fun v => color (reverse_map.idxOf v)) hcol
    reverse_map.zipIdx (fun _ => none) ds (fun v i hv => List.mem_zipIdx_iff_getElem?.mp hv)
    (fun _ _ h => by cases h) (Merges.refl hready.flat hready.root)
  refine hmerges.mono fun s hs t ht hne hst => ?_
  by_contra hadj
  have hlt : ∀ {v}, v ∈ CG.support → reverse_map.idxOf v < reverse_map.length :=
    fun hv => List.idxOf_lt_length_iff.mpr (hmem.mpr hv)
  have hidx : reverse_map.idxOf s ≠ reverse_map.idxOf t := by
    intro heq
    have hs' := hget hs
    rw [heq, hget ht] at hs'
    exact hne (Option.some.inj hs').symm
  have hproper := (Dsatur2.dsatur2_coloring_spec (G := conflict_graph CG reverse_map)
    S.make_heap_perm).2 _ (hlt hs) _ (hlt ht) hidx
    (conflict_graph_adj (hget hs) (hget ht) hadj)
  rw [← hcolor] at hproper
  exact hproper hst

end Coloring

/-! ## By maximal cliques -/

namespace TTT

/-- The loop that filters a clique.  A turn that removes nothing would be repeated for ever, so
that the size of the clique bounds the turns. -/
def filterClique (S : Setting vertex_type) (CG : CompatibilityGraph) (ds : DisjointSets C_vertex) :
    Nat → Finset C_vertex → Except Error (Finset C_vertex)
  | 0, _ => .error .outOfFuel
  | fuel + 1, curr_clique =>
    if curr_clique.card > 1 then
      let curr_expandend_clique := S.all_vertices.filter fun av => ds.find_set av ∈ curr_clique
      match S.fc.select_candidate_to_remove curr_expandend_clique S.uv2v CG with
      | some v => filterClique S CG ds fuel (curr_clique.erase (ds.find_set v))
      | none => .ok curr_clique
    else .ok curr_clique

/-- The vertices of a clique are merged with the first one and leave the support. -/
def mergeClique (first : C_vertex) : List C_vertex → DisjointSets C_vertex → Finset C_vertex →
    Except Error (DisjointSets C_vertex × Finset C_vertex)
  | [], ds, support => .ok (ds, support)
  | curr_vertex :: rest, ds, support =>
    if curr_vertex ∈ support then
      mergeClique first rest (if curr_vertex = first then ds else ds.union_set first curr_vertex)
        (support.erase curr_vertex)
    else .error (.assertion "unexpected condition")

/-- Vertices without an edge leave the support. -/
def dropIsolated (S : Setting vertex_type) (CG : CompatibilityGraph) : CompatibilityGraph :=
  (S.order CG.support).foldl (fun CG current =>
    if CG.out_degree current = 0 then { CG with support := CG.support.erase current } else CG) CG

/-- The loop until no vertex is left, with the upper bound of the next search. -/
def coverLoop (search : CompatibilityGraph → Int → Except Error MaximalClique.Search)
    (S : Setting vertex_type) : Nat → Int → CompatibilityGraph → DisjointSets C_vertex →
      Except Error (CompatibilityGraph × DisjointSets C_vertex)
  | 0, _, CG, ds => if CG.support = ∅ then .ok (CG, ds) else .error .outOfFuel
  | fuel + 1, upper_bound, CG, ds =>
    if CG.support = ∅ then .ok (CG, ds)
    else (search CG upper_bound).bind fun MWC =>
      (filterClique S CG ds (MWC.Q_max.card + 1) MWC.Q_max).bind fun curr_clique =>
        match curr_clique.sort (· ≤ ·) with
        | [] => .error (.unreachable "begin of an empty clique")
        | first :: rest => (mergeClique first (first :: rest) ds CG.support).bind fun r =>
          coverLoop search S fuel MWC.W_Q_max (dropIsolated S { CG with support := r.2 }) r.1

/-- `do_clique_covering`, which puts the support back at its end. -/
def do_clique_covering (search : Setting vertex_type → CompatibilityGraph → Int →
    Except Error MaximalClique.Search) : Solver vertex_type := fun S CG ds =>
  (coverLoop (search S) S CG.support.card (2 ^ 31 - 1) CG ds).map fun r =>
    ({ r.1 with support := r.1.support ∪ CG.support }, r.2)

end TTT

/-- `TTT_based_clique_covering_fast`. -/
def TTT_based_clique_covering_fast : Solver vertex_type :=
  TTT.do_clique_covering fun S CG _ => MaximalClique.TTT_maximal_weighted_clique_fast CG S.order

/-- `TTT_based_clique_covering`. -/
def TTT_based_clique_covering : Solver vertex_type :=
  TTT.do_clique_covering fun S CG upper_bound =>
    MaximalClique.TTT_maximal_weighted_clique CG S.order upper_bound

namespace TTT

variable {S : Setting vertex_type} {CG CG₀ : CompatibilityGraph} {ds ds₀ : DisjointSets C_vertex}

/-- A clique is cut down to one that is not empty. -/
theorem filterClique_meets (fuel : Nat) : ∀ curr_clique, curr_clique ≠ ∅ →
    Meets (S.fc.PicksMembers ∧ curr_clique.card < fuel) (filterClique S CG ds fuel curr_clique)
      fun clique => clique ⊆ curr_clique ∧ clique ≠ ∅ := by
  induction fuel with
  | zero => exact fun curr_clique _ => Meets.error fun h => Nat.not_lt_zero _ h.2
  | succ fuel ih =>
    intro curr_clique hne
    rw [filterClique]
    by_cases hcard : curr_clique.card > 1
    · rw [if_pos hcard]
      simp only
      split
      case h_1 v hv =>
        have hsub := Finset.erase_subset (ds.find_set v) curr_clique
        have hne' : curr_clique.erase (ds.find_set v) ≠ ∅ := by
          have hle := Finset.pred_card_le_card_erase (s := curr_clique) (a := ds.find_set v)
          rw [← Finset.card_pos.trans Finset.nonempty_iff_ne_empty]
          omega
        refine ((ih _ hne').mono fun clique h => ⟨h.1.trans hsub, h.2⟩).of_imp fun h => ⟨h.1, ?_⟩
        -- The representative of a member is one of the clique.
        have hmem : ds.find_set v ∈ curr_clique := (Finset.mem_filter.mp (h.1 _ _ _ v hv)).2
        rw [Finset.card_erase_of_mem hmem]
        omega
      case h_2 => exact Meets.ok ⟨Finset.Subset.refl _, hne⟩
    · rw [if_neg hcard]
      exact Meets.ok ⟨Finset.Subset.refl _, hne⟩

/-- The vertices of the support have not been merged with any other. -/
def Single (S support : Finset C_vertex) (ds : DisjointSets C_vertex) : Prop :=
  ∀ v ∈ support, ∀ s ∈ S, ds.Same s v → s = v

theorem mergeClique_spec {clique : Finset C_vertex} (hclique : CG.Clique clique)
    (hsub : clique ⊆ CG.support) {first : C_vertex} (hfirst : first ∈ clique) :
    ∀ rest support ds, rest.Nodup → (∀ v ∈ rest, v ∈ clique ∧ v ∈ support) → first ∉ support →
      support ⊆ CG.support → Merges CG.Adj CG.support ds₀ ds → Single CG.support support ds →
        (∀ s ∈ CG.support, ds.Same s first → s ∈ clique) →
          ∃ ds' support', mergeClique first rest ds support = .ok (ds', support') ∧
            Merges CG.Adj CG.support ds₀ ds' ∧ Single CG.support support' ds' ∧
              support' ⊆ support := by
  intro rest
  induction rest with
  | nil => exact fun support ds _ _ _ _ h hsingle _ => ⟨ds, support, rfl, h, hsingle, fun _ => id⟩
  | cons v rest ih =>
    intro support ds hnodup hrest hnot hsupport h hsingle hgroup
    obtain ⟨hv, hvs⟩ := hrest v List.mem_cons_self
    obtain ⟨hvrest, hnodup⟩ := List.nodup_cons.mp hnodup
    have hne : v ≠ first := by
      rintro rfl
      exact hnot hvs
    rw [mergeClique, if_pos hvs, if_neg hne]
    have hsplit : ∀ s ∈ CG.support, ds.Same s first ∨ ds.Same s v → s ∈ clique := by
      rintro s hs (hsame | hsame)
      · exact hgroup s hs hsame
      · exact hsingle v hvs s hs hsame ▸ hv
    have hunion : Merges CG.Adj CG.support ds₀ (ds.union_set first v) := by
      refine h.union_set (fun _ _ => CompatibilityGraph.Adj.symm) (hsub hfirst) (hsub hv)
        fun s hs t ht hsf htv => ?_
      obtain rfl := hsingle v hvs t ht htv
      by_cases hst : s = t
      · exact Or.inl hst
      · exact Or.inr (hclique s (hgroup s hs hsf) t hv hst)
    obtain ⟨ds', support', hrun, hmerges, hsingle', hsub'⟩ := ih (support.erase v)
      (ds.union_set first v) hnodup
      (fun w hw => ⟨(hrest w (List.mem_cons_of_mem v hw)).1, Finset.mem_erase.mpr
        ⟨fun heq => hvrest (heq ▸ hw), (hrest w (List.mem_cons_of_mem v hw)).2⟩⟩)
      (fun hmem => hnot (Finset.mem_of_mem_erase hmem))
      ((Finset.erase_subset _ _).trans hsupport) hunion
      (by
        intro w hw s hs hsame
        obtain ⟨hwv, hws⟩ := Finset.mem_erase.mp hw
        obtain hold | ⟨-, hwf | hwv'⟩ := DisjointSets.same_union_set.mp hsame
        · exact hsingle w hws s hs hold
        · exact absurd (hsingle w hws first (hsub hfirst) hwf.symm ▸ hws) hnot
        · exact absurd (hsingle v hvs w (hsupport hws) hwv') hwv)
      (by
        intro s hs hsame
        obtain hold | ⟨hs', -⟩ := DisjointSets.same_union_set.mp hsame
        · exact hgroup s hs hold
        · exact hsplit s hs hs')
    exact ⟨ds', support', hrun, hmerges, hsingle', hsub'.trans (Finset.erase_subset _ _)⟩

theorem dropIsolated_spec (S : Setting vertex_type) (CG : CompatibilityGraph) :
    ∃ support ⊆ CG.support, dropIsolated S CG = { CG with support := support } := by
  have hloop : ∀ (l : List C_vertex) (CG : CompatibilityGraph), ∃ support ⊆ CG.support,
      l.foldl (fun CG current => if CG.out_degree current = 0 then
        { CG with support := CG.support.erase current } else CG) CG =
          { CG with support := support } := by
    intro l
    induction l with
    | nil => exact fun CG => ⟨CG.support, Finset.Subset.refl _, rfl⟩
    | cons v l ih =>
      intro CG
      rw [List.foldl_cons]
      split
      · obtain ⟨support, hsub, heq⟩ := ih { CG with support := CG.support.erase v }
        exact ⟨support, hsub.trans (Finset.erase_subset v CG.support), heq⟩
      · exact ih CG
  exact hloop _ CG

/-- What the loop needs from a search: a clique that is not empty. -/
def FindsClique (search : CompatibilityGraph → Int → Except Error MaximalClique.Search) : Prop :=
  ∀ CG upper_bound, CG.Loopless → CG.support ≠ ∅ → ∃ MWC, search CG upper_bound = .ok MWC ∧
    MWC.Q_max ⊆ CG.support ∧ CG.Clique MWC.Q_max ∧ MWC.Q_max ≠ ∅

theorem coverLoop_meets
    {search : CompatibilityGraph → Int → Except Error MaximalClique.Search}
    (hsearch : FindsClique search) (hloop : CG.Loopless) (fuel : Nat) :
    ∀ support upper_bound ds, support.card ≤ fuel → support ⊆ CG.support →
      Merges CG.Adj CG.support ds₀ ds → Single CG.support support ds →
        Meets S.fc.PicksMembers
          (coverLoop search S fuel upper_bound { CG with support := support } ds)
          fun r => ∃ support' ⊆ CG.support, r.1 = { CG with support := support' } ∧
            Merges CG.Adj CG.support ds₀ r.2 := by
  induction fuel with
  | zero =>
    intro support upper_bound ds hcard hsub h _
    have hempty : support = ∅ := Finset.card_eq_zero.mp (Nat.le_zero.mp hcard)
    rw [coverLoop, if_pos hempty]
    exact Meets.ok ⟨support, hsub, rfl, h⟩
  | succ fuel ih =>
    intro support upper_bound ds hcard hsub h hsingle
    rw [coverLoop]
    by_cases hempty : support = ∅
    · rw [if_pos hempty]
      exact Meets.ok ⟨support, hsub, rfl, h⟩
    rw [if_neg hempty]
    obtain ⟨MWC, hrun, hmax, hclique, hne⟩ :=
      hsearch { CG with support := support } upper_bound hloop hempty
    refine (Meets.of_eq hrun (P := fun r => r = MWC) rfl).bind fun r hr => ?_
    subst hr
    refine ((filterClique_meets _ _ hne).of_imp fun h => ⟨h, Nat.lt_succ_self _⟩).bind
      fun curr_clique hcurr => ?_
    obtain ⟨hcurr, hcurrNe⟩ := hcurr
    have hmem : ∀ v, v ∈ curr_clique.sort (· ≤ ·) ↔ v ∈ curr_clique := fun v =>
      Finset.mem_sort _
    have hnodup := Finset.sort_nodup curr_clique (· ≤ ·)
    cases hsort : curr_clique.sort (· ≤ ·) with
    | nil =>
      obtain ⟨v, hv⟩ := Finset.nonempty_iff_ne_empty.mpr hcurrNe
      have hv' := (hmem v).mpr hv
      rw [hsort] at hv'
      cases hv'
    | cons first rest =>
      rw [hsort] at hmem hnodup
      obtain ⟨hfirst, hnodup⟩ := List.nodup_cons.mp hnodup
      have hsupport : ∀ {v}, v ∈ curr_clique → v ∈ support := fun hv => hmax (hcurr hv)
      have hfirstMem := (hmem first).mp List.mem_cons_self
      have hclique' : CG.Clique curr_clique := fun u hu v hv hne =>
        hclique u (hcurr hu) v (hcurr hv) hne
      have hlt : (support.erase first).card < support.card :=
        Finset.card_erase_lt_of_mem (hsupport hfirstMem)
      obtain ⟨ds', support', hmerge, hmerges, hsingle', hsub'⟩ := mergeClique_spec hclique'
        (fun v hv => hsub (hsupport hv)) hfirstMem rest (support.erase first) ds hnodup
        (fun v hv => by
          have hv' := (hmem v).mp (List.mem_cons_of_mem first hv)
          exact ⟨hv', Finset.mem_erase.mpr ⟨fun heq => hfirst (heq ▸ hv), hsupport hv'⟩⟩)
        (Finset.notMem_erase _ _) ((Finset.erase_subset _ _).trans hsub) h
        (fun v hv => hsingle v (Finset.mem_of_mem_erase hv))
        (fun s hs hsame => hsingle first (hsupport hfirstMem) s hs hsame ▸ hfirstMem)
      have hrun' : mergeClique first (first :: rest) ds support = .ok (ds', support') := by
        rw [mergeClique, if_pos (hsupport hfirstMem), if_pos rfl]
        exact hmerge
      refine (Meets.of_eq hrun' (P := fun r => r = (ds', support')) rfl).bind fun r hr => ?_
      subst hr
      obtain ⟨support'', hsub'', hdrop⟩ := dropIsolated_spec S { CG with support := support' }
      simp only [hdrop]
      have hle := Finset.card_le_card (hsub''.trans hsub')
      refine ih support'' _ ds' (by omega) ?_ hmerges fun v hv => hsingle' v (hsub'' hv)
      exact ((hsub''.trans hsub').trans (Finset.erase_subset _ _)).trans hsub

theorem do_clique_covering_correct {search : Setting vertex_type → CompatibilityGraph → Int →
    Except Error MaximalClique.Search} (hsearch : ∀ S, FindsClique (search S)) :
    (do_clique_covering search).Correct := by
  intro S CG ds hready
  refine (coverLoop_meets (hsearch S) hready.loopless CG.support.card CG.support (2 ^ 31 - 1) ds
    (Nat.le_refl _) (Finset.Subset.refl _) (Merges.refl hready.flat hready.root)
    fun v hv s hs hsame => ?_).map fun r hr => ?_
  · rwa [DisjointSets.Same, hready.root s hs, hready.root v hv] at hsame
  · obtain ⟨support, hsub, hgraph, hmerges⟩ := hr
    refine ⟨?_, hmerges⟩
    simp only [hgraph, Finset.union_eq_right.mpr hsub]

end TTT

theorem TTT_based_clique_covering_fast_correct :
    (TTT_based_clique_covering_fast : Solver vertex_type).Correct :=
  TTT.do_clique_covering_correct fun S _ _ hloop hne =>
    MaximalClique.get_weighted_maximal_cliques_spec hloop S.mem_order _ hne

theorem TTT_based_clique_covering_correct :
    (TTT_based_clique_covering : Solver vertex_type).Correct :=
  TTT.do_clique_covering_correct fun S _ _ hloop hne =>
    MaximalClique.get_weighted_maximal_cliques_spec hloop S.mem_order _ hne

end CliqueCovering
end Bambu
