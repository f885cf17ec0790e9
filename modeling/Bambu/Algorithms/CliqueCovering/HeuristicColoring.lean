/-
  Bambu.Algorithms.CliqueCovering.HeuristicColoring

  The heuristic colorings are proper, and none of them leaves its tables.

  The tables of `dsatur2_coloring` have a row and a column for each node.  Its loop is written once
  more with the indices checked: before the turn `i` at most `i` colors are in use, so that a new
  one has its column.
-/

import Bambu.Algorithms.CliqueCovering.DsaturColoring

namespace Bambu
namespace CliqueCovering

/-! ## The tables of `dsatur2_coloring` -/

namespace Dsatur2

section Checked

variable (G : ConflictGraph)

/-- `mark`, where none is an index outside the tables. -/
def markAt (color : Nat) (st : Dsatur2) (node1 : Nat) : Option Dsatur2 :=
  if node1 < G.num_node ∧ color < G.num_node then some (mark color st node1) else none

def AssignColorAt (node color : Nat) (st : Dsatur2) : Option Dsatur2 :=
  if node < G.num_node then
    (G.adjacent_vertices node).foldlM (markAt G color)
      { st with CM := Function.update st.CM node color }
  else none

/-- The loop that looks for a color from `j` on, over so many colors. -/
def findColor (st : Dsatur2) (v : Nat) : Nat → Nat → Option (Option Nat)
  | 0, _ => some none
  | left + 1, j =>
    if v < G.num_node ∧ j < G.num_node then
      if !st.ColorAdj v j then some (some j) else findColor st v left (j + 1)
    else none

/-- `SeqColor`, where none is an index outside the tables or the heap. -/
def SeqColorAt (make_heap : (Nat → Nat → Bool) → List Nat → List Nat) :
    Nat → List Nat → Nat → Dsatur2 → Option (Nat × Dsatur2)
  | 0, _, max_color, st => some (max_color + 1, st)
  | count + 1, heap_container, max_color, st =>
    match make_heap st.HCF heap_container with
    | [] => none
    | v :: rest =>
      (findColor G st v (max_color + 1) 0).bind fun found =>
        match found with
        | some j => (AssignColorAt G v j st).bind (SeqColorAt make_heap count rest max_color)
        | none =>
          (AssignColorAt G v (max_color + 1) st).bind
            (SeqColorAt make_heap count rest (max_color + 1))

/-- `dsatur2_coloring`, with the indices checked. -/
def dsatur2_coloring_checked (make_heap : (Nat → Nat → Bool) → List Nat → List Nat) :
    Option (Nat × (Nat → Nat)) :=
  if G.num_node = 0 then some (0, fun _ => 0)
  else
    (SeqColorAt G make_heap G.num_node (List.range G.num_node) 0 (init G)).map
      fun (num_colors, st) => (num_colors, st.CM)

variable {G} {st : Dsatur2}

theorem AssignColorAt_eq (hG : G.WellFormed) {node color : Nat} (hnode : node < G.num_node)
    (hcolor : color < G.num_node) :
    AssignColorAt G node color st = some (AssignColor G node color st) := by
  have hloop : ∀ (l : List Nat) (st : Dsatur2), (∀ w ∈ l, w < G.num_node) →
      l.foldlM (markAt G color) st = some (l.foldl (mark color) st) := by
    intro l
    induction l with
    | nil => exact fun _ _ => rfl
    | cons w l ih =>
      intro st hl
      rw [List.foldlM_cons, markAt, if_pos ⟨hl w List.mem_cons_self, hcolor⟩]
      exact ih _ fun u hu => hl u (List.mem_cons_of_mem w hu)
  rw [AssignColorAt, if_pos hnode]
  exact hloop _ _ fun w hw => (hG.lt (ConflictGraph.mem_adjacent_vertices.mp hw)).2

theorem findColor_eq {v : Nat} (hv : v < G.num_node) (left j : Nat) (hj : j + left ≤ G.num_node) :
    findColor G st v left j = some ((List.range' j left).find? fun j => !st.ColorAdj v j) := by
  induction left generalizing j with
  | zero => rfl
  | succ left ih =>
    rw [findColor, if_pos ⟨hv, by omega⟩, List.range'_succ, List.find?_cons]
    by_cases hfree : (!st.ColorAdj v j) = true
    · rw [if_pos hfree, hfree]
    · rw [if_neg hfree, eq_false_of_ne_true hfree]
      exact ih (j + 1) (by omega)

/-- Before the turn `i` at most `i` colors are in use, and in the first turn the first is free. -/
theorem SeqColorAt_eq (hG : G.WellFormed)
    {make_heap : (Nat → Nat → Bool) → List Nat → List Nat}
    (hheap : ∀ cmp l, (make_heap cmp l).Perm l) (count : Nat) :
    ∀ i heap_container max_color st, heap_container.length = count → i + count = G.num_node →
      (∀ v ∈ heap_container, v < G.num_node) →
      (max_color < i ∨ (max_color = 0 ∧ i = 0 ∧ ∀ v, st.ColorAdj v 0 = false)) →
        SeqColorAt G make_heap count heap_container max_color st =
          some (SeqColor G make_heap count heap_container max_color st) := by
  induction count with
  | zero => exact fun _ _ _ _ _ _ _ _ => rfl
  | succ count ih =>
    intro i heap max_color st hlen hi hmem hmax
    have hperm := hheap st.HCF heap
    rw [SeqColorAt, SeqColor]
    cases hheap' : make_heap st.HCF heap with
    | nil =>
      rw [hheap'] at hperm
      rw [← hperm.length_eq] at hlen
      cases hlen
    | cons v rest =>
      rw [hheap'] at hperm
      have hlen' : rest.length = count := by
        rw [← hperm.length_eq, List.length_cons] at hlen
        exact Nat.succ.inj hlen
      have hv : v < G.num_node := hmem v (hperm.mem_iff.mp List.mem_cons_self)
      have hrest : ∀ w ∈ rest, w < G.num_node := fun w hw =>
        hmem w (hperm.mem_iff.mp (List.mem_cons_of_mem v hw))
      dsimp only
      rw [findColor_eq hv (max_color + 1) 0 (by omega), ← List.range_eq_range', Option.bind_some]
      cases hfind : (List.range (max_color + 1)).find? fun j => !st.ColorAdj v j with
      | some j =>
        have hj := List.mem_range.mp (List.mem_of_find?_eq_some hfind)
        dsimp only
        rw [AssignColorAt_eq hG hv (by omega), Option.bind_some]
        exact ih (i + 1) rest _ _ hlen' (by omega) hrest (.inl (by omega))
      | none =>
        -- This is not the first turn.
        have hlt : max_color < i := by
          rcases hmax with hlt | ⟨rfl, rfl, hfree⟩
          · exact hlt
          · have hused := List.find?_eq_none.mp hfind 0 (List.mem_range.mpr Nat.one_pos)
            rw [hfree v] at hused
            exact absurd rfl hused
        dsimp only
        rw [AssignColorAt_eq hG hv (by omega), Option.bind_some]
        exact ih (i + 1) rest _ _ hlen' (by omega) hrest (.inl (by omega))

theorem dsatur2_coloring_checked_eq (hG : G.WellFormed)
    {make_heap : (Nat → Nat → Bool) → List Nat → List Nat}
    (hheap : ∀ cmp l, (make_heap cmp l).Perm l) :
    dsatur2_coloring_checked G make_heap = some (dsatur2_coloring G make_heap) := by
  unfold dsatur2_coloring_checked dsatur2_coloring
  by_cases hzero : G.num_node = 0
  · rw [if_pos hzero, if_pos hzero]
  · rw [if_neg hzero, if_neg hzero, SeqColorAt_eq hG hheap G.num_node 0 _ 0 _ List.length_range
      (Nat.zero_add _) (fun v => List.mem_range.mp) (.inr ⟨rfl, rfl, fun _ => rfl⟩)]
    rfl

end Checked

end Dsatur2

/-! ## The colorings -/

/-- The nodes have colors below a count that is zero for the empty graph only, and the two ends of
an edge between different nodes have different colors. -/
structure ProperlyColored (G : ConflictGraph) (count : Nat) (color : Nat → Nat) : Prop where
  zero_iff : count = 0 ↔ G.num_node = 0
  lt : ∀ v < G.num_node, color v < count
  apart : ∀ v < G.num_node, ∀ w < G.num_node, v ≠ w → G.Adj v w → color v ≠ color w

namespace HeuristicColoring

variable {G : ConflictGraph}

theorem dsatur2_properlyColored {make_heap : (Nat → Nat → Bool) → List Nat → List Nat}
    (hheap : ∀ cmp l, (make_heap cmp l).Perm l) :
    ProperlyColored G (Dsatur2.dsatur2_coloring G make_heap).1
      (Dsatur2.dsatur2_coloring G make_heap).2 := by
  obtain ⟨hlt, hapart⟩ := Dsatur2.dsatur2_coloring_spec (G := G) hheap
  refine ⟨⟨fun hcount => ?_, fun hzero => ?_⟩, hlt, hapart⟩
  · by_contra hzero
    have hpos := hlt 0 (Nat.pos_of_ne_zero hzero)
    rw [hcount] at hpos
    exact Nat.not_lt_zero _ hpos
  · rw [Dsatur2.dsatur2_coloring, if_pos hzero]

/-- The sort and the heaps may order the nodes in any way. -/
theorem heuristic_colorings_proper (G : ConflictGraph) (hG : G.WellFormed)
    (stable_sort make_heap pop_heap : (Nat → Nat → Bool) → List Nat → List Nat)
    (hsort : ∀ cmp l, (stable_sort cmp l).Perm l) (hmake : ∀ cmp l, (make_heap cmp l).Perm l)
    (hpop : ∀ cmp v l, (pop_heap cmp (v :: l)).Perm l) :
    (∃ k color, Dsatur.dsatur_coloring G stable_sort = some (k, color) ∧
      ProperlyColored G k color) ∧
    (∃ k color, Dsatur2.dsatur2_coloring_checked G make_heap = some (k, color) ∧
      ProperlyColored G k color) ∧
    (∃ k color, MarkedColoring.degree_coloring make_heap pop_heap G = some (k, color) ∧
      ProperlyColored G k color) ∧
    ∀ i < G.num_node, ∃ st s v, Dsatur.stateBefore G stable_sort i = some st ∧
      (∀ s, (Dsatur.listAt G st s).Nodup) ∧
      (∀ s v, v ∈ Dsatur.listAt G st s ↔
        Dsatur.Uncolored G st v ∧ Dsatur.saturation G st v = s) ∧
      Dsatur.scan st.satur_to_list st.maxsatur = some (s, v) ∧ Dsatur.Uncolored G st v ∧
      ∀ u, Dsatur.Uncolored G st u → Dsatur.saturation G st u ≤ Dsatur.saturation G st v := by
  refine ⟨?_, ?_, ?_, fun i hi => Dsatur.stateBefore_lists hG hsort hi⟩
  · obtain ⟨k, color, hrun, hzero, hlt, hapart⟩ := Dsatur.dsatur_coloring_proper hG hsort
    exact ⟨k, color, hrun, hzero, hlt, hapart⟩
  · exact ⟨_, _, Dsatur2.dsatur2_coloring_checked_eq hG hmake, dsatur2_properlyColored hmake⟩
  · obtain ⟨k, color, hrun, hzero, hlt, hapart⟩ :=
      MarkedColoring.degree_coloring_spec hG hmake hpop
    exact ⟨k, color, hrun, hzero, hlt, hapart⟩

/-- An edge, and a loop that no coloring looks at. -/
def edgeAndLoop : ConflictGraph := ⟨2, [(0, 1), (0, 0)]⟩

theorem heuristic_colorings_proper_edge :
    (∃ k color, Dsatur.dsatur_coloring edgeAndLoop swapTwo = some (k, color) ∧
      ProperlyColored edgeAndLoop k color) ∧
    (∃ k color, Dsatur2.dsatur2_coloring_checked edgeAndLoop
        (fun cmp => swapTwo fun a b => !cmp a b) = some (k, color) ∧
      ProperlyColored edgeAndLoop k color) ∧
    (∃ k color, MarkedColoring.degree_coloring (fun cmp => swapTwo fun a b => !cmp a b)
        (fun _ => List.tail) edgeAndLoop = some (k, color) ∧
      ProperlyColored edgeAndLoop k color) ∧
    ∀ i < 2, ∃ st s v, Dsatur.stateBefore edgeAndLoop swapTwo i = some st ∧
      (∀ s, (Dsatur.listAt edgeAndLoop st s).Nodup) ∧
      (∀ s v, v ∈ Dsatur.listAt edgeAndLoop st s ↔
        Dsatur.Uncolored edgeAndLoop st v ∧ Dsatur.saturation edgeAndLoop st v = s) ∧
      Dsatur.scan st.satur_to_list st.maxsatur = some (s, v) ∧
      Dsatur.Uncolored edgeAndLoop st v ∧
      ∀ u, Dsatur.Uncolored edgeAndLoop st u →
        Dsatur.saturation edgeAndLoop st u ≤ Dsatur.saturation edgeAndLoop st v :=
  heuristic_colorings_proper edgeAndLoop (by unfold ConflictGraph.WellFormed; decide)
    swapTwo (fun cmp => swapTwo fun a b => !cmp a b) (fun _ => List.tail) swapTwo_perm
    (fun _ => swapTwo_perm _) fun _ _ l => List.Perm.refl l

end HeuristicColoring
end CliqueCovering
end Bambu
