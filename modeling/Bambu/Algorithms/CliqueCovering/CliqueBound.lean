/-
  Bambu.Algorithms.CliqueCovering.CliqueBound

  The bound of `maxclique_dsatur_coloring`: a greedy clique, and a search for a larger one that
  colors the graph on the way.

  The search may miss the largest clique, but whatever it returns is the size of a clique, so that
  no coloring has fewer colors.  A set that the code swaps in around a call and out again is an
  argument of the call.
-/

import Bambu.Algorithms.CliqueCovering.MarkedColoring
import Mathlib.Combinatorics.SimpleGraph.Coloring.Vertex

namespace Bambu
namespace CliqueCovering

/-- No loop, and no two edges with the same ends. -/
structure ConflictGraph.Simple (G : ConflictGraph) : Prop where
  wellFormed : G.WellFormed
  loopless : ∀ v, ¬ G.Adj v v
  nodup : ∀ v, (G.adjacent_vertices v).Nodup

/-- Colors below `k`, different ones at the ends of every edge. -/
structure ConflictGraph.IsColoring (G : ConflictGraph) (k : Nat) (f : Nat → Nat) : Prop where
  lt : ∀ v < G.num_node, f v < k
  apart : ∀ v < G.num_node, ∀ w < G.num_node, G.Adj v w → f v ≠ f w

/-- Vertices that are all adjacent to each other. -/
structure ConflictGraph.IsClique (G : ConflictGraph) (S : Finset Nat) : Prop where
  lt : ∀ v ∈ S, v < G.num_node
  adj : ∀ v ∈ S, ∀ w ∈ S, v ≠ w → G.Adj v w

namespace CliqueBound

/-- `BestClique`, `BestColoring` and the color map. -/
structure Found where
  BestClique : Finset Nat
  BestColoring : Nat
  CM : Nat → Nat

/-- What the loop over the vertices of the filtered graph finds. -/
structure Scan where
  selected : Nat
  maxdegree : Nat
  mindegree : Nat
  FG_cardinality : Nat

section Model

variable (G : ConflictGraph)

/-- `vertices(FG)` -/
def vertices (support : Finset Nat) : List Nat := (List.range G.num_node).filter (· ∈ support)

/-- `adjacent_vertices(v, FG)` -/
def adjacent (support : Finset Nat) (v : Nat) : List Nat :=
  (G.adjacent_vertices v).filter (· ∈ support)

def out_degree (support : Finset Nat) (v : Nat) : Nat := (adjacent G support v).length

/-- The body of the loop. -/
def scanVertex (support : Finset Nat) (s : Scan) (v : Nat) : Scan :=
  let tmpdegree := out_degree G support v
  { selected := if tmpdegree > s.maxdegree then v else s.selected
    maxdegree := if tmpdegree > s.maxdegree then tmpdegree else s.maxdegree
    mindegree := if tmpdegree < s.mindegree then tmpdegree else s.mindegree
    FG_cardinality := s.FG_cardinality + 1 }

/-- The loop, behind the first vertex. -/
def scanAll (support : Finset Nat) (v : Nat) (rest : List Nat) : Scan :=
  rest.foldl (scanVertex G support)
    ⟨v, out_degree G support v, out_degree G support v, 1⟩

/-- The loop of `MaxCliqueGreedy`, for so many turns; none is a turn too few, or the first of no
vertices. -/
def greedyLoop : Nat → Finset Nat → Finset Nat → Option (Finset Nat)
  | 0, _, _ => none
  | fuel + 1, support, BestClique =>
    match vertices G support with
    | [] => none
    | v :: rest =>
      let selected := (scanAll G support v rest).selected
      let BestClique := insert selected BestClique
      let support := (adjacent G support selected).toFinset
      if vertices G support = [] then some BestClique else greedyLoop fuel support BestClique

/-- `MaxCliqueGreedy`: the best clique, of which it returns the size. -/
def MaxCliqueGreedy : Option (Finset Nat) :=
  greedyLoop G (G.num_node + 1) (Finset.range G.num_node) ∅

/-- The coloring is saved if it is one of the whole graph, and better. -/
def saveColoring (support : Finset Nat) (k : Nat) (color : Nat → Nat) (st : Found) : Found :=
  if support.card = G.num_node ∧ k < st.BestColoring then
    { st with
      BestColoring := k
      CM := fun i => if i < G.num_node then color i else st.CM i }
  else st

/-- `MaxCliqueRec`; none is a recursion deeper than the fuel. -/
def MaxCliqueRec : Nat → Nat → Finset Nat → Finset Nat → Found → Option (Nat × Found)
  | 0, _, _, _, _ => none
  | fuel + 1, ub, support, C, st =>
    match vertices G support with
    | [] =>
      some (C.card, if st.BestClique.card < C.card then { st with BestClique := C } else st)
    | v :: rest =>
      (MarkedColoring.unsorted_coloring G (· ∈ support)).bind fun (k, color) =>
        let st := saveColoring G support k color st
        let ub := if ub ≤ k + C.card then ub else k + C.card
        if ub ≤ st.BestClique.card then some (st.BestClique.card, st)
        else
          let scan := scanAll G support v rest
          if scan.FG_cardinality + C.card ≤ st.BestClique.card then some (st.BestClique.card, st)
          else if scan.mindegree + 1 = scan.FG_cardinality then
            let st :=
              if st.BestClique.card < C.card + scan.FG_cardinality then
                { st with BestClique := C ∪ (v :: rest).toFinset }
              else st
            some (st.BestClique.card, st)
          else
            let G1_support := (adjacent G support scan.selected).toFinset
            (MaxCliqueRec fuel ub G1_support (insert scan.selected C) st).bind
              fun (sizeG1, st) =>
                if ub = sizeG1 then some (sizeG1, st)
                else MaxCliqueRec fuel ub (support.erase scan.selected) C st

end Model

/-! ## Cliques and colorings -/

section Cliques

variable {G : ConflictGraph} {S support : Finset Nat}

/-- The members of a clique have different colors. -/
theorem card_le_of_isColoring (hS : G.IsClique S) {k : Nat} {f : Nat → Nat}
    (hf : G.IsColoring k f) : S.card ≤ k := by
  have hmaps : ∀ v ∈ S, f v ∈ Finset.range k := fun v hv =>
    Finset.mem_range.mpr (hf.lt v (hS.lt v hv))
  have hinj : Set.InjOn f S := by
    intro v hv w hw heq
    by_contra hne
    exact hf.apart v (hS.lt v hv) w (hS.lt w hw) (hS.adj v hv w hw hne) heq
  have hcard := Finset.card_le_card_of_injOn f hmaps hinj
  rwa [Finset.card_range] at hcard

theorem isClique_empty : G.IsClique ∅ :=
  ⟨fun _ hv => absurd hv (Finset.notMem_empty _), fun _ hv => absurd hv (Finset.notMem_empty _)⟩

/-- The vertices that a clique can be continued with. -/
structure Extends (G : ConflictGraph) (C support : Finset Nat) : Prop where
  clique : G.IsClique C
  lt : ∀ v ∈ support, v < G.num_node
  adj : ∀ v ∈ support, ∀ w ∈ C, G.Adj w v

theorem Extends.insert (h : Extends G S support) {v : Nat} (hv : v ∈ support) :
    G.IsClique (insert v S) := by
  constructor
  case lt =>
    intro w hw
    rcases Finset.mem_insert.mp hw with rfl | hw
    · exact h.lt w hv
    · exact h.clique.lt w hw
  case adj =>
    intro u hu w hw hne
    rcases Finset.mem_insert.mp hu with rfl | huS
    · exact (h.adj u hv w ((Finset.mem_insert.mp hw).resolve_left hne.symm)).symm
    · rcases Finset.mem_insert.mp hw with rfl | hwS
      · exact h.adj w hv u huS
      · exact h.clique.adj u huS w hwS hne

theorem mem_vertices {v : Nat} : v ∈ vertices G support ↔ v < G.num_node ∧ v ∈ support := by
  simp [vertices]

theorem mem_adjacent {v w : Nat} : w ∈ adjacent G support v ↔ G.Adj v w ∧ w ∈ support := by
  rw [adjacent, List.mem_filter, ConflictGraph.mem_adjacent_vertices, decide_eq_true_iff]

/-- The call for the neighbours of a vertex. -/
theorem Extends.adjacent (h : Extends G S support) {v : Nat} (hv : v ∈ support) :
    Extends G (Insert.insert v S) (CliqueBound.adjacent G support v).toFinset := by
  constructor
  case clique => exact h.insert hv
  case lt =>
    intro w hw
    exact h.lt w (mem_adjacent.mp (List.mem_toFinset.mp hw)).2
  case adj =>
    intro w hw u hu
    obtain ⟨hadj, hw⟩ := mem_adjacent.mp (List.mem_toFinset.mp hw)
    rcases Finset.mem_insert.mp hu with rfl | hu
    · exact hadj
    · exact h.adj w hw u hu

theorem Extends.erase (h : Extends G S support) (v : Nat) : Extends G S (support.erase v) :=
  ⟨h.clique, fun w hw => h.lt w (Finset.mem_of_mem_erase hw),
    fun w hw => h.adj w (Finset.mem_of_mem_erase hw)⟩

/-- There are fewer neighbours of a vertex than vertices. -/
theorem card_adjacent_lt (hloop : ∀ v, ¬ G.Adj v v) {v : Nat} (hv : v ∈ support) :
    (adjacent G support v).toFinset.card < support.card := by
  refine Finset.card_lt_card (Finset.ssubset_iff_subset_ne.mpr ⟨fun w hw => ?_, fun heq => ?_⟩)
  · exact (mem_adjacent.mp (List.mem_toFinset.mp hw)).2
  · rw [← heq] at hv
    exact hloop v (mem_adjacent.mp (List.mem_toFinset.mp hv)).1

end Cliques

/-! ## The scan -/

section Scan

variable {G : ConflictGraph} {support : Finset Nat}

/-- The selected vertex is one of those scanned, which are counted, and none of them has a smaller
degree than the minimum. -/
theorem scanAll_spec (G : ConflictGraph) (support : Finset Nat) (v : Nat) (rest : List Nat) :
    (scanAll G support v rest).selected ∈ v :: rest ∧
      (scanAll G support v rest).FG_cardinality = (v :: rest).length ∧
      ∀ w ∈ v :: rest, (scanAll G support v rest).mindegree ≤ out_degree G support w := by
  have hloop : ∀ (l done : List Nat) (s : Scan), s.selected ∈ done →
      s.FG_cardinality = done.length →
      (∀ w ∈ done, s.mindegree ≤ out_degree G support w) →
        (l.foldl (scanVertex G support) s).selected ∈ done ++ l ∧
        (l.foldl (scanVertex G support) s).FG_cardinality = (done ++ l).length ∧
        ∀ w ∈ done ++ l, (l.foldl (scanVertex G support) s).mindegree ≤ out_degree G support w := by
    intro l
    induction l with
    | nil =>
      intro done s hsel hcard hmin
      rw [List.append_nil]
      exact ⟨hsel, hcard, hmin⟩
    | cons u l ih =>
      intro done s hsel hcard hmin
      rw [List.append_cons]
      refine ih (done ++ [u]) _ ?_ ?_ fun w hw => ?_
      · rw [scanVertex]
        dsimp only
        split_ifs
        · exact List.mem_append_right _ (List.mem_singleton_self u)
        · exact List.mem_append_left _ hsel
      · rw [List.length_append, ← hcard]
        rfl
      · rw [scanVertex]
        dsimp only
        rcases List.mem_append.mp hw with hw | hw
        · have := hmin w hw
          split_ifs <;> omega
        · rw [List.mem_singleton.mp hw]
          split_ifs <;> omega
  exact hloop rest [v] _ (List.mem_singleton_self v) rfl fun w hw => by
    rw [List.mem_singleton.mp hw]

/-- With the minimum degree at its highest the vertices are a clique. -/
theorem adj_of_mindegree (hG : G.Simple) {v : Nat} {rest : List Nat}
    (hvertices : vertices G support = v :: rest)
    (hmin : (scanAll G support v rest).mindegree + 1 = (scanAll G support v rest).FG_cardinality)
    {u w : Nat} (hu : u ∈ v :: rest) (hw : w ∈ v :: rest) (hne : u ≠ w) : G.Adj u w := by
  obtain ⟨-, hcard, hle⟩ := scanAll_spec G support v rest
  have hnodup : (v :: rest).Nodup := hvertices ▸ List.nodup_range.filter _
  have hmem : ∀ x, x ∈ v :: rest ↔ x < G.num_node ∧ x ∈ support := fun x => by
    rw [← hvertices, mem_vertices]
  -- The neighbours are among the other vertices, and as many.
  have hsub : (adjacent G support u).toFinset ⊆ (v :: rest).toFinset.erase u := by
    intro x hx
    obtain ⟨hadj, hx⟩ := mem_adjacent.mp (List.mem_toFinset.mp hx)
    refine Finset.mem_erase.mpr ⟨fun heq => hG.loopless u (heq ▸ hadj), ?_⟩
    exact List.mem_toFinset.mpr ((hmem x).mpr ⟨(hG.wellFormed.lt hadj).2, hx⟩)
  have hle' : ((v :: rest).toFinset.erase u).card ≤ (adjacent G support u).toFinset.card := by
    have hneighbours : (adjacent G support u).Nodup := (hG.nodup u).filter _
    rw [List.toFinset_card_of_nodup hneighbours,
      Finset.card_erase_of_mem (List.mem_toFinset.mpr hu), List.toFinset_card_of_nodup hnodup]
    have hdegree := hle u hu
    rw [out_degree] at hdegree
    omega
  have heq := Finset.eq_of_subset_of_card_le hsub hle'
  have hmemw : w ∈ (v :: rest).toFinset.erase u :=
    Finset.mem_erase.mpr ⟨hne.symm, List.mem_toFinset.mpr hw⟩
  rw [← heq] at hmemw
  exact (mem_adjacent.mp (List.mem_toFinset.mp hmemw)).1

end Scan

/-! ## The searches -/

section Searches

variable {G : ConflictGraph}

theorem greedyLoop_spec (hG : G.Simple) {fuel : Nat} :
    ∀ {support C : Finset Nat}, Extends G C support → support.Nonempty → support.card < fuel →
      ∃ S, greedyLoop G fuel support C = some S ∧ G.IsClique S := by
  induction fuel with
  | zero => exact fun _ _ hfuel => absurd hfuel (Nat.not_lt_zero _)
  | succ fuel ih =>
    intro support C h hne hfuel
    rw [greedyLoop]
    cases hvertices : vertices G support with
    | nil =>
      obtain ⟨v, hv⟩ := hne
      have hmem := mem_vertices.mpr ⟨h.lt v hv, hv⟩
      rw [hvertices] at hmem
      exact absurd hmem List.not_mem_nil
    | cons v rest =>
      have hsel := (scanAll_spec G support v rest).1
      rw [← hvertices, mem_vertices] at hsel
      dsimp only
      split_ifs with hnil
      · exact ⟨_, rfl, h.insert hsel.2⟩
      · have hlt := card_adjacent_lt (G := G) hG.loopless hsel.2
        obtain ⟨w, hw⟩ := List.exists_mem_of_ne_nil _ hnil
        exact ih (h.adjacent hsel.2) ⟨w, (mem_vertices.mp hw).2⟩
          (Nat.lt_of_lt_of_le hlt (Nat.le_of_lt_succ hfuel))

/-- The greedy search ends, with a clique. -/
theorem MaxCliqueGreedy_spec (hG : G.Simple) (hpos : 0 < G.num_node) :
    ∃ S, MaxCliqueGreedy G = some S ∧ G.IsClique S := by
  refine greedyLoop_spec hG ⟨isClique_empty, fun v => Finset.mem_range.mp,
    fun _ _ _ hw => absurd hw (Finset.notMem_empty _)⟩ ⟨0, Finset.mem_range.mpr hpos⟩ ?_
  rw [Finset.card_range]
  exact Nat.lt_succ_self _

/-- The best clique is one, and a coloring that is saved is one with so many colors. -/
structure Valid (G : ConflictGraph) (st : Found) : Prop where
  clique : G.IsClique st.BestClique
  saved : st.BestColoring = G.num_node + 1 ∨ G.IsColoring st.BestColoring st.CM

theorem Valid.saveColoring {st : Found} (h : Valid G st) {support : Finset Nat}
    (hlt : ∀ v ∈ support, v < G.num_node) {k : Nat} {color : Nat → Nat}
    (hk : ∀ v < G.num_node, v ∈ support → color v < k)
    (hcolor : ∀ v < G.num_node, ∀ w < G.num_node, v ∈ support → w ∈ support → v ≠ w →
      G.Adj v w → color v ≠ color w) (hloop : ∀ v, ¬ G.Adj v v) :
    Valid G (saveColoring G support k color st) := by
  unfold CliqueBound.saveColoring
  split_ifs with hsave
  · refine ⟨h.clique, .inr ?_⟩
    -- The support has every vertex.
    have hall : support = Finset.range G.num_node := by
      refine Finset.eq_of_subset_of_card_le (fun v hv => Finset.mem_range.mpr (hlt v hv)) ?_
      rw [Finset.card_range, hsave.1]
    have hmem : ∀ v, v < G.num_node → v ∈ support := fun v hv => by
      rw [hall]
      exact Finset.mem_range.mpr hv
    constructor
    case lt =>
      intro v hv
      dsimp only
      rw [if_pos hv]
      exact hk v hv (hmem v hv)
    case apart =>
      intro v hv w hw hadj
      dsimp only
      rw [if_pos hv, if_pos hw]
      exact hcolor v hv w hw (hmem v hv) (hmem w hw) (fun heq => hloop v (heq ▸ hadj)) hadj
  · exact h

theorem saveColoring_le (support : Finset Nat) (k : Nat) (color : Nat → Nat) (st : Found) :
    (saveColoring G support k color st).BestColoring ≤ st.BestColoring ∧
      (support.card = G.num_node → (saveColoring G support k color st).BestColoring ≤ k) := by
  unfold saveColoring
  split_ifs with hsave
  · exact ⟨Nat.le_of_lt hsave.2, fun _ => Nat.le_refl _⟩
  · exact ⟨Nat.le_refl _, fun hcard => Nat.le_of_not_lt fun hlt => hsave ⟨hcard, hlt⟩⟩

/-- Whatever the search returns is the size of a clique, and the coloring of the whole graph is
saved. -/
theorem MaxCliqueRec_spec (hG : G.Simple) {fuel : Nat} :
    ∀ (ub : Nat) {support C : Finset Nat} {st : Found}, Extends G C support → Valid G st →
      support.card < fuel →
      ∃ size st', MaxCliqueRec G fuel ub support C st = some (size, st') ∧ Valid G st' ∧
        (∃ S, G.IsClique S ∧ S.card = size) ∧ st'.BestColoring ≤ st.BestColoring ∧
        (support = Finset.range G.num_node → 0 < G.num_node →
          st'.BestColoring ≤ G.num_node) := by
  induction fuel with
  | zero => exact fun _ _ _ _ _ _ hfuel => absurd hfuel (Nat.not_lt_zero _)
  | succ fuel ih =>
    intro ub support C st h hst hfuel
    rw [MaxCliqueRec]
    cases hvertices : vertices G support with
    | nil =>
      refine ⟨C.card, _, rfl, ?_, ⟨C, h.clique, rfl⟩, ?_, fun hall hpos => ?_⟩
      · split_ifs
        · exact ⟨h.clique, hst.saved⟩
        · exact hst
      · split_ifs <;> exact Nat.le_refl _
      · have hmem : 0 ∈ vertices G support :=
          mem_vertices.mpr ⟨hpos, hall ▸ Finset.mem_range.mpr hpos⟩
        rw [hvertices] at hmem
        exact absurd hmem List.not_mem_nil
    | cons v rest =>
      obtain ⟨k, color, hrun, hkle, hk, hcolor⟩ :=
        MarkedColoring.unsorted_coloring_spec hG.wellFormed fun v => decide (v ∈ support)
      dsimp only
      rw [hrun, Option.bind_some]
      dsimp only
      have hsaved : Valid G (saveColoring G support k color st) :=
        hst.saveColoring h.lt (fun v hv hs => hk v hv (decide_eq_true hs))
          (fun v hv w hw hvs hws => hcolor v hv w hw (decide_eq_true hvs) (decide_eq_true hws))
          hG.loopless
      have hle := saveColoring_le (G := G) support k color st
      have hwhole : support = Finset.range G.num_node → 0 < G.num_node →
          (saveColoring G support k color st).BestColoring ≤ G.num_node := by
        rintro rfl -
        refine Nat.le_trans (hle.2 (Finset.card_range _)) (Nat.le_trans hkle ?_)
        exact (List.length_filter_le ..).trans_eq List.length_range
      generalize CliqueBound.saveColoring G support k color st = st1 at hsaved hle hwhole ⊢
      -- The best clique bounds what is left.
      have hstop : ∃ S, G.IsClique S ∧ S.card = st1.BestClique.card := ⟨_, hsaved.clique, rfl⟩
      generalize (if ub ≤ k + C.card then ub else k + C.card) = ub
      obtain ⟨hsel, hcard, -⟩ := scanAll_spec G support v rest
      have hselected := (mem_vertices.mp (hvertices ▸ hsel)).2
      split_ifs with hub hfew hmin hlarger
      · exact ⟨_, _, rfl, hsaved, hstop, hle.1, hwhole⟩
      · exact ⟨_, _, rfl, hsaved, hstop, hle.1, hwhole⟩
      · -- All that is left is a clique.
        have hclique : G.IsClique (C ∪ (v :: rest).toFinset) := by
          have hmem : ∀ w, w ∈ (v :: rest).toFinset → w < G.num_node ∧ w ∈ support := by
            intro w hw
            rw [List.mem_toFinset, ← hvertices] at hw
            exact mem_vertices.mp hw
          constructor
          case lt =>
            intro w hw
            rcases Finset.mem_union.mp hw with hw | hw
            · exact h.clique.lt w hw
            · exact (hmem w hw).1
          case adj =>
            intro w hw u hu hne
            rcases Finset.mem_union.mp hw with hwC | hwR
            · rcases Finset.mem_union.mp hu with huC | huR
              · exact h.clique.adj w hwC u huC hne
              · exact h.adj u (hmem u huR).2 w hwC
            · rcases Finset.mem_union.mp hu with huC | huR
              · exact (h.adj w (hmem w hwR).2 u huC).symm
              · exact adj_of_mindegree hG hvertices hmin (List.mem_toFinset.mp hwR)
                  (List.mem_toFinset.mp huR) hne
        exact ⟨_, _, rfl, ⟨hclique, hsaved.saved⟩, ⟨_, hclique, rfl⟩, hle.1, hwhole⟩
      · exact ⟨_, _, rfl, hsaved, hstop, hle.1, hwhole⟩
      · obtain ⟨sizeG1, st2, hrun2, hst2, hsize2, hle2, -⟩ := ih ub
          (h.adjacent hselected) hsaved
          (Nat.lt_of_lt_of_le (card_adjacent_lt hG.loopless hselected) (Nat.le_of_lt_succ hfuel))
        rw [hrun2, Option.bind_some]
        dsimp only
        have hwhole2 : support = Finset.range G.num_node → 0 < G.num_node →
            st2.BestColoring ≤ G.num_node := fun hall hpos =>
          Nat.le_trans hle2 (hwhole hall hpos)
        split_ifs
        · exact ⟨_, _, rfl, hst2, hsize2, Nat.le_trans hle2 hle.1, hwhole2⟩
        · have hlt := Finset.card_erase_lt_of_mem hselected
          obtain ⟨sizeG0, st3, hrun3, hst3, hsize3, hle3, -⟩ := ih ub
            (h.erase _) hst2 (Nat.lt_of_lt_of_le hlt (Nat.le_of_lt_succ hfuel))
          exact ⟨_, _, hrun3, hst3, hsize3, Nat.le_trans hle3 (Nat.le_trans hle2 hle.1),
            fun hall hpos => Nat.le_trans hle3 (hwhole2 hall hpos)⟩

end Searches

end CliqueBound
end CliqueCovering
end Bambu
