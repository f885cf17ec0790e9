/-
  Bambu.Algorithms.CliqueCovering.Dsatur2Coloring

  `dsatur2_coloring`: the vertices are colored one after the other, in an order that a heap chooses
  again before each of them.

  Two adjacent vertices get different colors whatever the order is.
-/

import Mathlib.Data.List.Nodup
import Mathlib.Data.List.Perm.Basic

namespace Bambu
namespace CliqueCovering

/-- An undirected graph over the nodes below a bound. -/
structure ConflictGraph where
  num_node : Nat
  edges : List (Nat × Nat)

namespace ConflictGraph

/-- A loop leads to its vertex twice. -/
def adjacent_vertices (G : ConflictGraph) (node : Nat) : List Nat :=
  G.edges.flatMap fun e =>
    (if e.1 = node then [e.2] else []) ++ if e.2 = node then [e.1] else []

def Adj (G : ConflictGraph) (i j : Nat) : Prop := (i, j) ∈ G.edges ∨ (j, i) ∈ G.edges

theorem mem_adjacent_vertices {G : ConflictGraph} {i j : Nat} :
    j ∈ G.adjacent_vertices i ↔ G.Adj i j := by
  rw [adjacent_vertices, List.mem_flatMap]
  constructor
  · rintro ⟨⟨a, b⟩, he, hj⟩
    have hends : (a = i ∧ j = b) ∨ (b = i ∧ j = a) := by
      obtain hj | hj := List.mem_append.mp hj
      · exact Or.inl (by simpa using hj)
      · exact Or.inr (by simpa using hj)
    obtain ⟨rfl, rfl⟩ | ⟨rfl, rfl⟩ := hends
    · exact Or.inl he
    · exact Or.inr he
  · rintro (he | he)
    · refine ⟨(i, j), he, List.mem_append_left _ ?_⟩
      rw [if_pos rfl]
      exact List.mem_singleton_self j
    · refine ⟨(j, i), he, List.mem_append_right _ ?_⟩
      rw [if_pos rfl]
      exact List.mem_singleton_self j

end ConflictGraph

/-- `dsatur2_coloring_helper`. -/
structure Dsatur2 where
  CM : Nat → Nat
  ColorAdj : Nat → Nat → Bool
  ColorCount : Nat → Nat
  DegreeCount : Nat → Nat

namespace Dsatur2

variable (G : ConflictGraph)

def init : Dsatur2 where
  CM := fun _ => 0
  ColorAdj := fun _ _ => false
  ColorCount := fun _ => 0
  DegreeCount := fun node => (G.adjacent_vertices node).length

/-- `dsatur2_heap_compare_functor`. -/
def HCF (st : Dsatur2) (i1 i2 : Nat) : Bool :=
  !(st.ColorCount i1 > st.ColorCount i2 ||
    (st.ColorCount i1 == st.ColorCount i2 && st.DegreeCount i1 > st.DegreeCount i2))

/-- One neighbour of a vertex that gets the color. -/
def mark (color : Nat) (st : Dsatur2) (node1 : Nat) : Dsatur2 :=
  { st with
    ColorCount := if st.ColorAdj node1 color then st.ColorCount
      else Function.update st.ColorCount node1 (st.ColorCount node1 + 1)
    ColorAdj := Function.update st.ColorAdj node1
      (Function.update (st.ColorAdj node1) color true)
    DegreeCount := Function.update st.DegreeCount node1 (st.DegreeCount node1 - 1) }

def AssignColor (node color : Nat) (st : Dsatur2) : Dsatur2 :=
  (G.adjacent_vertices node).foldl (mark color) { st with CM := Function.update st.CM node color }

variable (make_heap : (Nat → Nat → Bool) → List Nat → List Nat)

/-- The loop over the vertices, of which the heap has the ones that are left. -/
def SeqColor : Nat → List Nat → Nat → Dsatur2 → Nat × Dsatur2
  | 0, _, max_color, st => (max_color + 1, st)
  | count + 1, heap_container, max_color, st =>
    match make_heap st.HCF heap_container with
    | [] => (max_color + 1, st)
    | v :: rest =>
      match (List.range (max_color + 1)).find? fun j => !st.ColorAdj v j with
      | some j => SeqColor count rest max_color (AssignColor G v j st)
      | none => SeqColor count rest (max_color + 1) (AssignColor G v (max_color + 1) st)

/-- The number of colors, with the coloring. -/
def dsatur2_coloring : Nat × (Nat → Nat) :=
  if G.num_node = 0 then (0, fun _ => 0)
  else
    let (num_colors, st) := SeqColor G make_heap G.num_node (List.range G.num_node) 0 (init G)
    (num_colors, st.CM)

/-! ## Different colors -/

/-- The vertices so far: their colors are marked at their neighbours, and differ from those of
their neighbours. -/
structure Colored (done : Nat → Prop) (max_color : Nat) (st : Dsatur2) : Prop where
  le : ∀ i, done i → st.CM i ≤ max_color
  marked : ∀ i j, done i → G.Adj i j → st.ColorAdj j (st.CM i) = true
  apart : ∀ i j, done i → done j → i ≠ j → G.Adj i j → st.CM i ≠ st.CM j

variable {G make_heap} {done done' : Nat → Prop} {max_color : Nat} {st : Dsatur2}

theorem AssignColor_spec (node color : Nat) (st : Dsatur2) :
    (AssignColor G node color st).CM = Function.update st.CM node color ∧
      ∀ i c, (AssignColor G node color st).ColorAdj i c = true ↔
        st.ColorAdj i c = true ∨ (c = color ∧ G.Adj node i) := by
  have hloop : ∀ (l : List Nat) (st : Dsatur2), (l.foldl (mark color) st).CM = st.CM ∧
      ∀ i c, (l.foldl (mark color) st).ColorAdj i c = true ↔
        st.ColorAdj i c = true ∨ (c = color ∧ i ∈ l) := by
    intro l
    induction l with
    | nil => simp
    | cons node1 l ih =>
      intro st
      obtain ⟨hCM, hadj⟩ := ih (mark color st node1)
      refine ⟨hCM, fun i c => ?_⟩
      rw [List.foldl_cons, hadj, List.mem_cons]
      have hmark : (mark color st node1).ColorAdj i c = true ↔
          st.ColorAdj i c = true ∨ (c = color ∧ i = node1) := by
        simp only [mark]
        by_cases hi : i = node1
        · subst hi
          by_cases hc : c = color <;> simp [hc]
        · simp [hi]
      rw [hmark]
      tauto
  obtain ⟨hCM, hadj⟩ :=
    hloop (G.adjacent_vertices node) { st with CM := Function.update st.CM node color }
  refine ⟨hCM, fun i c => (hadj i c).trans ?_⟩
  rw [ConflictGraph.mem_adjacent_vertices]

/-- A vertex gets a color that none of its neighbours has. -/
theorem Colored.assign (h : Colored G done max_color st) {v color max_color' : Nat}
    (hv : ¬ done v) (hfree : ∀ i, done i → G.Adj i v → st.CM i ≠ color)
    (hmax : max_color ≤ max_color') (hcolor : color ≤ max_color') :
    Colored G (fun i => done i ∨ i = v) max_color' (AssignColor G v color st) := by
  obtain ⟨hCM, hadj⟩ := AssignColor_spec (G := G) v color st
  have hold : ∀ i, done i → (AssignColor G v color st).CM i = st.CM i := by
    intro i hi
    rw [hCM, Function.update_of_ne]
    rintro rfl
    exact hv hi
  have hnew : (AssignColor G v color st).CM v = color := by rw [hCM, Function.update_self]
  refine ⟨?_, ?_, ?_⟩
  · rintro i (hi | rfl)
    · rw [hold i hi]
      exact Nat.le_trans (h.le i hi) hmax
    · rwa [hnew]
  · rintro i j (hi | rfl) hij
    · rw [hold i hi, hadj]
      exact Or.inl (h.marked i j hi hij)
    · rw [hnew, hadj]
      exact Or.inr ⟨rfl, hij⟩
  · rintro i j (hi | rfl) (hj | rfl) hne hij
    · rw [hold i hi, hold j hj]
      exact h.apart i j hi hj hne hij
    · rw [hold i hi, hnew]
      exact hfree i hi hij
    · rw [hold j hj, hnew]
      exact (hfree j hj (Or.symm hij)).symm
    · exact absurd rfl hne

theorem SeqColor_spec (hheap : ∀ cmp l, (make_heap cmp l).Perm l) (count : Nat) :
    ∀ heap_container done max_color st, heap_container.length = count → heap_container.Nodup →
      (∀ v ∈ heap_container, ¬ done v) → Colored G done max_color st →
        ∃ max_color' st', SeqColor G make_heap count heap_container max_color st =
            (max_color' + 1, st') ∧
          Colored G (fun v => done v ∨ v ∈ heap_container) max_color' st' := by
  induction count with
  | zero =>
    intro heap done max_color st hlen _ _ h
    obtain rfl := List.length_eq_zero_iff.mp hlen
    exact ⟨max_color, st, rfl, by simpa using h⟩
  | succ count ih =>
    intro heap done max_color st hlen hnodup hnew h
    have hperm := hheap st.HCF heap
    rw [SeqColor]
    cases hheap' : make_heap st.HCF heap with
    | nil =>
      rw [hheap'] at hperm
      rw [← hperm.length_eq] at hlen
      cases hlen
    | cons v rest =>
      rw [hheap'] at hperm
      obtain ⟨hv, hrest⟩ := List.nodup_cons.mp (hperm.nodup_iff.mpr hnodup)
      have hlen' : rest.length = count := by
        have := hperm.length_eq
        rw [List.length_cons] at this
        omega
      have hmem : ∀ w, w ∈ heap ↔ w = v ∨ w ∈ rest := by
        intro w
        rw [← hperm.mem_iff, List.mem_cons]
      have hvnew : ¬ done v := hnew v ((hmem v).mpr (Or.inl rfl))
      -- After the vertex is colored the loop goes on with the rest.
      have hgo : ∀ {color max_color'}, (∀ i, done i → G.Adj i v → st.CM i ≠ color) →
          max_color ≤ max_color' → color ≤ max_color' →
          ∃ max_color'' st', SeqColor G make_heap count rest max_color' (AssignColor G v color st) =
              (max_color'' + 1, st') ∧
            Colored G (fun w => done w ∨ w ∈ heap) max_color'' st' := by
        intro color max_color' hfree hmax hcolor
        obtain ⟨max_color'', st', hrun, hst'⟩ := ih rest (fun i => done i ∨ i = v) max_color'
          (AssignColor G v color st) hlen' hrest (by
            rintro w hw (hdone | rfl)
            · exact hnew w ((hmem w).mpr (Or.inr hw)) hdone
            · exact hv hw) (h.assign hvnew hfree hmax hcolor)
        refine ⟨max_color'', st', hrun, ?_⟩
        simpa only [hmem, or_assoc] using hst'
      cases hfind : (List.range (max_color + 1)).find? fun j => !st.ColorAdj v j with
      | some j =>
        simp only [hfind]
        have hfree := List.find?_some hfind
        have hj := List.mem_range.mp (List.mem_of_find?_eq_some hfind)
        refine hgo (fun i hi hadj heq => ?_) (Nat.le_refl _) (Nat.le_of_lt_succ hj)
        rw [← heq, h.marked i v hi hadj] at hfree
        cases hfree
      | none =>
        simp only [hfind]
        refine hgo (fun i hi _ heq => ?_) (Nat.le_succ _) (Nat.le_refl _)
        have hle := h.le i hi
        omega

/-- Two different nodes with an edge get different colors, below the number of colors. -/
theorem dsatur2_coloring_spec (hheap : ∀ cmp l, (make_heap cmp l).Perm l) :
    (∀ i < G.num_node, (dsatur2_coloring G make_heap).2 i < (dsatur2_coloring G make_heap).1) ∧
      ∀ i < G.num_node, ∀ j < G.num_node, i ≠ j → G.Adj i j →
        (dsatur2_coloring G make_heap).2 i ≠ (dsatur2_coloring G make_heap).2 j := by
  by_cases hzero : G.num_node = 0
  · rw [hzero]
    exact ⟨fun i hi => absurd hi (Nat.not_lt_zero i), fun i hi => absurd hi (Nat.not_lt_zero i)⟩
  · obtain ⟨max_color, st, hrun, hst⟩ := SeqColor_spec (G := G) hheap G.num_node
      (List.range G.num_node) (fun _ => False) 0 (init G) List.length_range List.nodup_range
      (fun _ _ => id) ⟨fun _ h => h.elim, fun _ _ h => h.elim, fun _ _ h => h.elim⟩
    have hcoloring : dsatur2_coloring G make_heap = (max_color + 1, st.CM) := by
      rw [dsatur2_coloring, if_neg hzero, hrun]
    have hdone : ∀ {i}, i < G.num_node → False ∨ i ∈ List.range G.num_node :=
      fun hi => Or.inr (List.mem_range.mpr hi)
    rw [hcoloring]
    exact ⟨fun i hi => Nat.lt_succ_of_le (hst.le i (hdone hi)),
      fun i hi j hj hne hadj => hst.apart i j (hdone hi) (hdone hj) hne hadj⟩

end Dsatur2
end CliqueCovering
end Bambu
