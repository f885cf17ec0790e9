/-
  Bambu.Algorithms.CliqueCovering.MaxcliqueDsatur

  `maxclique_dsatur_coloring`: a branch and bound search for a coloring with as few colors as
  possible, below the coloring that the search for a clique has left and down to the size of the
  clique.

  The vertices that are assigned at a level are the first ones of the heap, which is rebuilt behind
  them only.  The counters of the colors are exact for these vertices.
-/

import Bambu.Algorithms.CliqueCovering.CliqueBound

namespace Bambu
namespace CliqueCovering
namespace MaxcliqueDsatur

/-- The vertices that are assigned, their colors, and the counters. -/
structure Snapshot where
  assigned : List Nat
  ColorClass : Nat → Nat
  ColorAdj : Nat → Nat → Nat

/-- `maxclique_dsatur_coloring_helper`; the history has what every `AssignColor` and `RemoveColor`
has left, and no function reads it. -/
structure Helper where
  BestColoring : Nat
  CM : Nat → Nat
  ColorClass : Nat → Nat
  ColorAdj : Nat → Nat → Nat
  ColorCount : Nat → Nat
  DegreeCount : Nat → Nat
  heap_container : List Nat
  history : List Snapshot

section Model

variable (G : ConflictGraph)

/-- `heap_compare_functor` -/
def HCF (st : Helper) (i1 i2 : Nat) : Bool :=
  !(st.ColorCount i1 > st.ColorCount i2 ||
    (st.ColorCount i1 == st.ColorCount i2 && st.DegreeCount i1 > st.DegreeCount i2))

/-- One neighbour of a vertex that gets the color. -/
def mark (color : Nat) (st : Helper) (node1 : Nat) : Helper :=
  { st with
    ColorCount := if st.ColorAdj node1 color = 0 then
        Function.update st.ColorCount node1 (st.ColorCount node1 + 1)
      else st.ColorCount
    ColorAdj := Function.update st.ColorAdj node1
      (Function.update (st.ColorAdj node1) color (st.ColorAdj node1 color + 1))
    DegreeCount := Function.update st.DegreeCount node1 (st.DegreeCount node1 - 1) }

def AssignColor (node color : Nat) (st : Helper) : Helper :=
  (G.adjacent_vertices node).foldl (mark color)
    { st with ColorClass := Function.update st.ColorClass node color }

/-- One neighbour of a vertex that loses the color; none is the assertion on its counter. -/
def unmark (color : Nat) (st : Helper) (node1 : Nat) : Option Helper :=
  if st.ColorAdj node1 color ≠ 0 then
    some { st with
      ColorAdj := Function.update st.ColorAdj node1
        (Function.update (st.ColorAdj node1) color (st.ColorAdj node1 color - 1))
      ColorCount := if st.ColorAdj node1 color - 1 = 0 then
          Function.update st.ColorCount node1 (st.ColorCount node1 - 1)
        else st.ColorCount
      DegreeCount := Function.update st.DegreeCount node1 (st.DegreeCount node1 + 1) }
  else none

def RemoveColor (node color : Nat) (st : Helper) : Option Helper :=
  (G.adjacent_vertices node).foldlM (unmark color)
    { st with ColorClass := Function.update st.ColorClass node 0 }

/-- The first vertices of the heap with the counters. -/
def snapshot (level : Nat) (st : Helper) : Snapshot :=
  ⟨st.heap_container.take level, st.ColorClass, st.ColorAdj⟩

def note (level : Nat) (st : Helper) : Helper :=
  { st with history := st.history ++ [snapshot level st] }

/-- `save_colors`, where the value is better. -/
def save_colors (new_val : Nat) (st : Helper) : Helper :=
  if new_val < st.BestColoring then
    { st with
      BestColoring := new_val
      CM := fun i => if i < G.num_node then st.ColorClass i else st.CM i }
  else st

section Recursion

variable (rec : Nat → Helper → Option (Nat × Helper)) (i place : Nat)

/-- The call with a color for the vertex. -/
def tryColor (color current_color : Nat) (st : Helper) : Option Helper :=
  (rec current_color (note (i + 1) (AssignColor G place color st))).bind fun (new_val, st) =>
    (RemoveColor G place color (save_colors G new_val st)).map (note i)

/-- The loop over the colors in use; true is the return from it. -/
def colorLoop (current_color : Nat) : List Nat → Helper → Option (Bool × Helper)
  | [], st => some (false, st)
  | j :: js, st =>
    if st.ColorAdj place j = 0 then
      (tryColor G rec i place j current_color st).bind fun st =>
        if st.BestColoring ≤ current_color then some (true, st)
        else colorLoop current_color js st
    else colorLoop current_color js st

end Recursion

/-- The two tests against the best coloring and the lower bound. -/
def cut (lb current_color : Nat) (st : Helper) : Option Nat :=
  if current_color + 1 ≥ st.BestColoring then some (current_color + 1)
  else if st.BestColoring ≤ lb then some st.BestColoring
  else none

variable (make_heap : (Nat → Nat → Bool) → List Nat → List Nat) (lb : Nat)

/-- `SeqColorRec`, with so many vertices left; none is an index outside the heap, or a failed
assertion. -/
def SeqColorRec : Nat → Nat → Helper → Option (Nat × Helper)
  | 0, current_color, st => some ((cut lb current_color st).getD (current_color + 1), st)
  | left + 1, current_color, st =>
    match cut lb current_color st with
    | some value => some (value, st)
    | none =>
      let i := G.num_node - (left + 1)
      let heap := st.heap_container.take i ++ make_heap (HCF st) (st.heap_container.drop i)
      (heap[i]?).bind fun place =>
        (colorLoop G (SeqColorRec left) i place current_color (List.range (current_color + 1))
          { st with heap_container := heap }).bind fun (stop, st) =>
            if stop then some (st.BestColoring, st)
            else if current_color + 2 < st.BestColoring then
              (tryColor G (SeqColorRec left) i place (current_color + 1) (current_color + 1) st).map
                fun st => (st.BestColoring, st)
            else some (st.BestColoring, st)

/-- What the search for a clique leaves for the search for a coloring. -/
def start (found : CliqueBound.Found) : Helper where
  BestColoring := found.BestColoring
  CM := found.CM
  ColorClass := fun _ => G.num_node - 1
  ColorAdj := fun _ _ => 0
  ColorCount := fun _ => 0
  DegreeCount := fun v => (G.adjacent_vertices v).length
  heap_container := List.range G.num_node
  history := []

/-- What `MaxCliqueGreedy` and `MaxCliqueRec` return, and `SeqColorRec` with what it leaves. -/
structure Run where
  greedy : Nat
  lb : Nat
  val : Nat
  last : Helper

/-- The three searches, one after the other. -/
def searches (color : Nat → Nat) : Option Run :=
  (CliqueBound.MaxCliqueGreedy G).bind fun clique =>
    (CliqueBound.MaxCliqueRec G (G.num_node + 1) G.num_node (Finset.range G.num_node) ∅
      ⟨clique, G.num_node + 1, color⟩).bind fun (lb, found) =>
        (SeqColorRec G make_heap lb G.num_node 0 (start G found)).map fun (val, st) =>
          ⟨clique.card, lb, val, st⟩

/-- `maxclique_dsatur_coloring`, with the color map that it leaves. -/
def maxclique_dsatur_coloring (color : Nat → Nat) : Option (Nat × (Nat → Nat)) :=
  if G.num_node = 0 then some (0, color)
  else (searches G make_heap color).map fun run => (run.val, run.last.CM)

end Model

/-! ## The counters -/

section Counters

variable (G : ConflictGraph)

/-- The neighbours of a vertex that have been assigned a color. -/
def colouredNeighbours (s : Snapshot) (w c : Nat) : Finset Nat :=
  (G.adjacent_vertices w).toFinset.filter fun u => u ∈ s.assigned ∧ s.ColorClass u = c

/-- Each counter is the number of neighbours that have its color. -/
def Exact (s : Snapshot) : Prop := ∀ w c, s.ColorAdj w c = (colouredNeighbours G s w c).card

variable {G}

/-- One more vertex is assigned. -/
theorem card_colouredNeighbours_append {A : List Nat} {node : Nat} (hnode : node ∉ A)
    {ColorClass ColorClass' : Nat → Nat} (hclass : ∀ u ∈ A, ColorClass' u = ColorClass u)
    (adj adj' : Nat → Nat → Nat) (w c : Nat) :
    (colouredNeighbours G ⟨A ++ [node], ColorClass, adj⟩ w c).card =
      (colouredNeighbours G ⟨A, ColorClass', adj'⟩ w c).card +
        if c = ColorClass node ∧ w ∈ G.adjacent_vertices node then 1 else 0 := by
  have hmem : ∀ u, u ∈ colouredNeighbours G ⟨A, ColorClass', adj'⟩ w c ↔
      G.Adj w u ∧ u ∈ A ∧ ColorClass u = c := by
    intro u
    rw [colouredNeighbours, Finset.mem_filter, List.mem_toFinset,
      ConflictGraph.mem_adjacent_vertices]
    refine and_congr_right fun _ => and_congr_right fun hu => ?_
    dsimp only
    rw [hclass u hu]
  have hmem' : ∀ u, u ∈ colouredNeighbours G ⟨A ++ [node], ColorClass, adj⟩ w c ↔
      G.Adj w u ∧ (u ∈ A ∨ u = node) ∧ ColorClass u = c := by
    intro u
    rw [colouredNeighbours, Finset.mem_filter, List.mem_toFinset,
      ConflictGraph.mem_adjacent_vertices, List.mem_append, List.mem_singleton]
  have hnew : node ∉ colouredNeighbours G ⟨A, ColorClass', adj'⟩ w c := fun h =>
    hnode ((hmem node).mp h).2.1
  split_ifs with hcolor
  · rw [← Finset.card_insert_of_notMem hnew]
    congr 1
    ext u
    have hadj : G.Adj w node := (ConflictGraph.mem_adjacent_vertices.mp hcolor.2).symm
    rw [Finset.mem_insert, hmem, hmem']
    constructor
    · rintro ⟨hwu, hu | rfl, hc⟩
      · exact .inr ⟨hwu, hu, hc⟩
      · exact .inl rfl
    · rintro (rfl | ⟨hwu, hu, hc⟩)
      · exact ⟨hadj, .inr rfl, hcolor.1.symm⟩
      · exact ⟨hwu, .inl hu, hc⟩
  · rw [Nat.add_zero]
    congr 1
    ext u
    rw [hmem, hmem']
    constructor
    · rintro ⟨hwu, hu | rfl, hc⟩
      · exact ⟨hwu, hu, hc⟩
      · exact absurd ⟨hc.symm, ConflictGraph.mem_adjacent_vertices.mpr hwu.symm⟩ hcolor
    · rintro ⟨hwu, hu, hc⟩
      exact ⟨hwu, .inl hu, hc⟩

theorem AssignColor_spec (hnodup : ∀ v, (G.adjacent_vertices v).Nodup) (node color : Nat)
    (st : Helper) : ∃ adj count degree, AssignColor G node color st = { st with
        ColorClass := Function.update st.ColorClass node color
        ColorAdj := adj, ColorCount := count, DegreeCount := degree } ∧
      ∀ w c, adj w c =
        st.ColorAdj w c + if c = color ∧ w ∈ G.adjacent_vertices node then 1 else 0 := by
  have hloop : ∀ (l : List Nat), l.Nodup → ∀ st : Helper, ∃ adj count degree,
      l.foldl (mark color) st =
        { st with ColorAdj := adj, ColorCount := count, DegreeCount := degree } ∧
      ∀ w c, adj w c = st.ColorAdj w c + if c = color ∧ w ∈ l then 1 else 0 := by
    intro l
    induction l with
    | nil => exact fun _ st => ⟨_, _, _, rfl, fun w c => by simp⟩
    | cons node1 l ih =>
      intro hl st
      obtain ⟨hnode1, hl⟩ := List.nodup_cons.mp hl
      obtain ⟨adj, count, degree, heq, hadj⟩ := ih hl (mark color st node1)
      refine ⟨adj, count, degree, heq, fun w c => ?_⟩
      rw [hadj, mark]
      dsimp only
      rcases eq_or_ne w node1 with rfl | hw
      · rw [Function.update_self]
        rcases eq_or_ne c color with rfl | hc
        · simp [hnode1]
        · simp [hc]
      · rw [Function.update_of_ne hw]
        simp [hw]
  exact hloop (G.adjacent_vertices node) (hnodup node) _

theorem RemoveColor_spec (hnodup : ∀ v, (G.adjacent_vertices v).Nodup) (node color : Nat)
    (st : Helper) (hpos : ∀ w ∈ G.adjacent_vertices node, st.ColorAdj w color ≠ 0) :
    ∃ adj count degree, RemoveColor G node color st = some { st with
        ColorClass := Function.update st.ColorClass node 0
        ColorAdj := adj, ColorCount := count, DegreeCount := degree } ∧
      ∀ w c, st.ColorAdj w c =
        adj w c + if c = color ∧ w ∈ G.adjacent_vertices node then 1 else 0 := by
  have hloop : ∀ (l : List Nat), l.Nodup → ∀ st : Helper, (∀ w ∈ l, st.ColorAdj w color ≠ 0) →
      ∃ adj count degree, l.foldlM (unmark color) st = some
        { st with ColorAdj := adj, ColorCount := count, DegreeCount := degree } ∧
      ∀ w c, st.ColorAdj w c = adj w c + if c = color ∧ w ∈ l then 1 else 0 := by
    intro l
    induction l with
    | nil => exact fun _ st _ => ⟨_, _, _, rfl, fun w c => by simp⟩
    | cons node1 l ih =>
      intro hl st hpos
      obtain ⟨hnode1, hl⟩ := List.nodup_cons.mp hl
      have hone := hpos node1 List.mem_cons_self
      rw [List.foldlM_cons, unmark, if_pos hone]
      obtain ⟨adj, count, degree, heq, hadj⟩ := ih hl { st with
        ColorAdj := Function.update st.ColorAdj node1
          (Function.update (st.ColorAdj node1) color (st.ColorAdj node1 color - 1))
        ColorCount := if st.ColorAdj node1 color - 1 = 0 then
            Function.update st.ColorCount node1 (st.ColorCount node1 - 1)
          else st.ColorCount
        DegreeCount := Function.update st.DegreeCount node1 (st.DegreeCount node1 + 1) } (by
          intro w hw
          dsimp only
          rw [Function.update_of_ne (ne_of_mem_of_not_mem hw hnode1)]
          exact hpos w (List.mem_cons_of_mem node1 hw))
      refine ⟨adj, count, degree, heq, fun w c => ?_⟩
      have hold := hadj w c
      dsimp only at hold
      rcases eq_or_ne w node1 with rfl | hw
      · rw [Function.update_self] at hold
        rcases eq_or_ne c color with rfl | hc
        · simp [hnode1] at hold ⊢
          omega
        · simpa [hc] using hold
      · rw [Function.update_of_ne hw] at hold
        simpa [hw] using hold
  exact hloop (G.adjacent_vertices node) (hnodup node) _ hpos

end Counters

/-! ## The assignment -/

section Assignment

variable {G : ConflictGraph} {i current_color : Nat} {st st' : Helper}

/-- At a level the first vertices of the heap are properly colored, and the counters are exact. -/
structure Invariant (G : ConflictGraph) (i current_color : Nat) (st : Helper) : Prop where
  perm : st.heap_container.Perm (List.range G.num_node)
  exact : Exact G (snapshot i st)
  le : ∀ u ∈ st.heap_container.take i, st.ColorClass u ≤ current_color
  apart : ∀ u ∈ st.heap_container.take i, ∀ w ∈ st.heap_container.take i,
    G.Adj u w → st.ColorClass u ≠ st.ColorClass w
  saved : G.IsColoring st.BestColoring st.CM
  history : ∀ s ∈ st.history, Exact G s

/-- What a call leaves alone: the first `m` vertices of the heap, and the colors of the first `i`.
The best coloring gets only better. -/
structure Kept (i m : Nat) (st st' : Helper) : Prop where
  heap : st'.heap_container.take m = st.heap_container.take m
  colors : ∀ u ∈ st.heap_container.take i, st'.ColorClass u = st.ColorClass u
  best : st'.BestColoring ≤ st.BestColoring

theorem take_eq_of_le {l l' : List Nat} {i m : Nat} (h : l'.take m = l.take m) (him : i ≤ m) :
    l'.take i = l.take i := by
  rw [← Nat.min_eq_left him, ← List.take_take, h, List.take_take]

theorem Kept.trans {m : Nat} {st'' : Helper} (h : Kept i m st st') (h' : Kept i m st' st'')
    (him : i ≤ m) : Kept i m st st'' := by
  refine ⟨h'.heap.trans h.heap, fun u hu => ?_, Nat.le_trans h'.best h.best⟩
  rw [h'.colors u (take_eq_of_le h.heap him ▸ hu), h.colors u hu]

theorem Kept.mono {m j : Nat} (h : Kept i m st st') (hjm : j ≤ m) : Kept i j st st' :=
  ⟨take_eq_of_le h.heap hjm, h.colors, h.best⟩

theorem take_succ_of_place {l : List Nat} {place : Nat} (h : l[i]? = some place) :
    l.take (i + 1) = l.take i ++ [place] := by rw [List.take_add_one, h, Option.toList_some]

theorem Invariant.notMem_take (h : Invariant G i current_color st) {j place : Nat}
    (hplace : st.heap_container[j]? = some place) : place ∉ st.heap_container.take j := by
  have hnodup : (st.heap_container.take (j + 1)).Nodup :=
    (h.perm.nodup_iff.mpr List.nodup_range).sublist (List.take_sublist ..)
  rw [take_succ_of_place hplace, List.nodup_append] at hnodup
  exact fun hmem => hnodup.2.2 place hmem place (List.mem_singleton_self place) rfl

theorem Invariant.lt (h : Invariant G i current_color st) {j v : Nat}
    (hv : v ∈ st.heap_container.take j) : v < G.num_node :=
  List.mem_range.mp (h.perm.mem_iff.mp (List.mem_of_mem_take hv))

/-- The next vertex gets a color that none of its neighbours has. -/
theorem Invariant.assign (hnodup : ∀ v, (G.adjacent_vertices v).Nodup)
    (h : Invariant G i current_color st) {place color next_color : Nat}
    (hplace : st.heap_container[i]? = some place)
    (hfree : ∀ u ∈ st.heap_container.take i, G.Adj place u → st.ColorClass u ≠ color)
    (hle : current_color ≤ next_color) (hcolor : color ≤ next_color)
    (hloop : ∀ v, ¬ G.Adj v v) :
    Invariant G (i + 1) next_color (note (i + 1) (AssignColor G place color st)) ∧
      (AssignColor G place color st).ColorClass = Function.update st.ColorClass place color ∧
      (AssignColor G place color st).heap_container = st.heap_container ∧
      (AssignColor G place color st).BestColoring = st.BestColoring := by
  obtain ⟨adj, count, degree, heq, hadj⟩ := AssignColor_spec hnodup place color st
  have hnew := h.notMem_take hplace
  have htake := take_succ_of_place hplace
  have hold : ∀ u ∈ st.heap_container.take i,
      Function.update st.ColorClass place color u = st.ColorClass u := fun u hu =>
    Function.update_of_ne (ne_of_mem_of_not_mem hu hnew) ..
  rw [heq]
  refine ⟨?_, rfl, rfl, rfl⟩
  have hexact : Exact G ⟨st.heap_container.take (i + 1),
      Function.update st.ColorClass place color, adj⟩ := by
    intro w c
    rw [htake, card_colouredNeighbours_append hnew (fun u hu => (hold u hu).symm) _ st.ColorAdj,
      Function.update_self]
    exact (hadj w c).trans (congrArg (· + _) (h.exact w c))
  constructor
  case perm => exact h.perm
  case exact => exact hexact
  case le =>
    intro u hu
    have hu : u ∈ st.heap_container.take i ++ [place] := htake ▸ hu
    rcases List.mem_append.mp hu with hu | hu
    · exact (hold u hu).trans_le (Nat.le_trans (h.le u hu) hle)
    · rw [List.mem_singleton.mp hu]
      have hself : Function.update st.ColorClass place color place = color :=
        Function.update_self ..
      exact hself.trans_le hcolor
  case apart =>
    intro u hu w hw hadj
    have hu : u ∈ st.heap_container.take i ++ [place] := htake ▸ hu
    have hw : w ∈ st.heap_container.take i ++ [place] := htake ▸ hw
    dsimp only [note]
    rcases List.mem_append.mp hu with hu | hu
    · rcases List.mem_append.mp hw with hw | hw
      · rw [hold u hu, hold w hw]
        exact h.apart u hu w hw hadj
      · rw [List.mem_singleton.mp hw] at hadj ⊢
        rw [hold u hu, Function.update_self]
        exact hfree u hu hadj.symm
    · rw [List.mem_singleton.mp hu] at hadj ⊢
      rcases List.mem_append.mp hw with hw | hw
      · rw [hold w hw, Function.update_self]
        exact (hfree w hw hadj).symm
      · rw [List.mem_singleton.mp hw] at hadj
        exact absurd hadj (hloop place)
  case saved => exact h.saved
  case history =>
    intro s hs
    rcases List.mem_append.mp hs with hs | hs
    · exact h.history s hs
    · rw [List.mem_singleton.mp hs]
      exact hexact

/-- A better value is the number of colors of a coloring of all vertices. -/
theorem Invariant.save_colors (h : Invariant G i current_color st) {new_val : Nat}
    (hnew : new_val < st.BestColoring → i = G.num_node ∧ new_val = current_color + 1) :
    Invariant G i current_color (save_colors G new_val st) ∧
      (MaxcliqueDsatur.save_colors G new_val st).ColorClass = st.ColorClass ∧
      (MaxcliqueDsatur.save_colors G new_val st).heap_container = st.heap_container ∧
      (MaxcliqueDsatur.save_colors G new_val st).BestColoring = min new_val st.BestColoring := by
  unfold MaxcliqueDsatur.save_colors
  split_ifs with hlt
  · obtain ⟨rfl, rfl⟩ := hnew hlt
    refine ⟨?_, rfl, rfl, (Nat.min_eq_left (Nat.le_of_lt hlt)).symm⟩
    have hmem : ∀ v, v < G.num_node → v ∈ st.heap_container.take G.num_node := by
      intro v hv
      rw [List.take_of_length_le (h.perm.length_eq.trans List.length_range).le]
      exact h.perm.mem_iff.mpr (List.mem_range.mpr hv)
    refine ⟨h.perm, h.exact, h.le, h.apart, ⟨fun v hv => ?_, fun v hv w hw hadj => ?_⟩, h.history⟩
    · dsimp only
      rw [if_pos hv]
      exact Nat.lt_succ_of_le (h.le v (hmem v hv))
    · dsimp only
      rw [if_pos hv, if_pos hw]
      exact h.apart v (hmem v hv) w (hmem w hw) hadj
  · exact ⟨h, rfl, rfl, (Nat.min_eq_right (Nat.le_of_not_lt hlt)).symm⟩

/-- The last vertex loses its color again. -/
theorem Invariant.remove (hnodup : ∀ v, (G.adjacent_vertices v).Nodup) {next_color : Nat}
    (h : Invariant G (i + 1) next_color st) {place color : Nat}
    (hplace : st.heap_container[i]? = some place) (hcolor : st.ColorClass place = color)
    (hle : ∀ u ∈ st.heap_container.take i, st.ColorClass u ≤ current_color) :
    ∃ st', RemoveColor G place color st = some st' ∧
      Invariant G i current_color (note i st') ∧
      st'.ColorClass = Function.update st.ColorClass place 0 ∧
      st'.heap_container = st.heap_container ∧ st'.BestColoring = st.BestColoring := by
  have hnew := h.notMem_take hplace
  have htake := take_succ_of_place hplace
  have hold : ∀ u ∈ st.heap_container.take i,
      Function.update st.ColorClass place 0 u = st.ColorClass u := fun u hu =>
    Function.update_of_ne (ne_of_mem_of_not_mem hu hnew) ..
  have hcount : ∀ (adj' : Nat → Nat → Nat) w c, st.ColorAdj w c =
      (colouredNeighbours G ⟨st.heap_container.take i,
        Function.update st.ColorClass place 0, adj'⟩ w c).card +
        if c = color ∧ w ∈ G.adjacent_vertices place then 1 else 0 := by
    intro adj' w c
    have hexact := h.exact w c
    rw [snapshot, htake, card_colouredNeighbours_append hnew hold _ adj', hcolor] at hexact
    exact hexact
  obtain ⟨adj, count, degree, hrun, hadj⟩ := RemoveColor_spec hnodup place color st (by
    intro w hw
    rw [hcount st.ColorAdj, if_pos ⟨rfl, hw⟩]
    exact Nat.succ_ne_zero _)
  refine ⟨_, hrun, ?_, rfl, rfl, rfl⟩
  have hexact : Exact G ⟨st.heap_container.take i, Function.update st.ColorClass place 0, adj⟩ :=
    fun w c => Nat.add_right_cancel ((hadj w c).symm.trans (hcount adj w c))
  constructor
  case perm => exact h.perm
  case exact => exact hexact
  case le =>
    intro u hu
    exact (hold u hu).trans_le (hle u hu)
  case apart =>
    intro u hu w hw hadj
    have hsub : ∀ v, v ∈ st.heap_container.take i → v ∈ st.heap_container.take (i + 1) :=
      fun v hv => htake ▸ List.mem_append_left _ hv
    dsimp only [note]
    rw [hold u hu, hold w hw]
    exact h.apart u (hsub u hu) w (hsub w hw) hadj
  case saved => exact h.saved
  case history =>
    intro s hs
    rcases List.mem_append.mp hs with hs | hs
    · exact h.history s hs
    · rw [List.mem_singleton.mp hs]
      exact hexact

end Assignment

end MaxcliqueDsatur
end CliqueCovering
end Bambu
