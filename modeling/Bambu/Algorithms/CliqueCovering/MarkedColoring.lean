/-
  Bambu.Algorithms.CliqueCovering.MarkedColoring

  The coloring loop of `degree_coloring` and `unsorted_coloring`: the colors of the neighbours of a
  vertex are marked with its number, and it gets the least color without this mark.

  A vertex without a color carries the last color of the table.  Its mark is never read, because
  fewer colors than vertices are in use while a vertex is left.
-/

import Bambu.Algorithms.CliqueCovering.Dsatur2Coloring
import Mathlib.Data.List.Range

namespace Bambu
namespace CliqueCovering

/-- The edges have their ends among the nodes. -/
def ConflictGraph.WellFormed (G : ConflictGraph) : Prop :=
  ∀ e ∈ G.edges, e.1 < G.num_node ∧ e.2 < G.num_node

theorem ConflictGraph.WellFormed.lt {G : ConflictGraph} (h : G.WellFormed) {i j : Nat}
    (hij : G.Adj i j) : i < G.num_node ∧ j < G.num_node := by
  obtain he | he := hij
  · exact h _ he
  · exact (h _ he).symm

/-- What the sort, and a heap, make of two elements. -/
def swapTwo (cmp : Nat → Nat → Bool) : List Nat → List Nat
  | [a, b] => if cmp b a then [b, a] else [a, b]
  | l => l

theorem swapTwo_perm (cmp : Nat → Nat → Bool) (l : List Nat) : (swapTwo cmp l).Perm l := by
  unfold swapTwo
  split
  · split
    · exact List.Perm.swap ..
    · exact List.Perm.refl _
  · exact List.Perm.refl _

namespace MarkedColoring

/-- The color map, the marks and `max_color`; a mark is none where it has its initial value. -/
structure Marked where
  color : Nat → Nat
  mark : Nat → Option Nat
  max_color : Nat

section Model

variable (adjacent_vertices : Nat → List Nat) (V : Nat)

/-- `mark[get(color, v1)] = i`; none is an index outside the table. -/
def markNeighbour (i : Nat) (color : Nat → Nat) (mark : Nat → Option Nat) (v1 : Nat) :
    Option (Nat → Option Nat) :=
  if color v1 < V then some (Function.update mark (color v1) (some i)) else none

/-- The scan for the least color without the mark, over as many colors as are left. -/
def scanColors (i : Nat) (mark : Nat → Option Nat) : Nat → Nat → Option Nat
  | 0, j => some j
  | left + 1, j =>
    if j < V then
      if mark j = some i then scanColors i mark left (j + 1) else some j
    else none

/-- The body of the loop. -/
def colorVertex (current i : Nat) (st : Marked) : Option Marked :=
  ((adjacent_vertices current).foldlM (markNeighbour V i st.color) st.mark).bind fun mark =>
    (scanColors V i mark st.max_color 0).map fun j =>
      { mark := mark
        max_color := if j = st.max_color then st.max_color + 1 else st.max_color
        color := Function.update st.color current j }

/-- The loop over the vertices that are left; `next` leaves those after the first. -/
def colorLoop (next : List Nat → List Nat) : Nat → Nat → List Nat → Marked → Option Marked
  | 0, _, _, st => some st
  | _ + 1, _, [], st => some st
  | count + 1, i, current :: rest, st =>
    (colorVertex adjacent_vertices V current i st).bind
      (colorLoop next count (i + 1) (next (current :: rest)))

/-- The number of colors, with the coloring of the vertices of a container. -/
def markedColoring (next : List Nat → List Nat) (container : List Nat) :
    Option (Nat × (Nat → Nat)) :=
  (colorLoop adjacent_vertices V next V 0 container ⟨fun _ => V - 1, fun _ => none, 0⟩).map
    fun st => (st.max_color, st.color)

end Model

/-- `unsorted_coloring`, on the vertices that a filter leaves. -/
def unsorted_coloring (G : ConflictGraph) (support : Nat → Bool) : Option (Nat × (Nat → Nat)) :=
  let vertices := (List.range G.num_node).filter support
  markedColoring (fun v => (G.adjacent_vertices v).filter support) vertices.length List.tail vertices

/-- `degree_compare_functor`. -/
def HCF (G : ConflictGraph) (v1 v2 : Nat) : Bool :=
  (G.adjacent_vertices v1).length < (G.adjacent_vertices v2).length

/-- `degree_coloring`; `pop_heap` leaves the heap without its first element. -/
def degree_coloring (make_heap pop_heap : (Nat → Nat → Bool) → List Nat → List Nat)
    (G : ConflictGraph) : Option (Nat × (Nat → Nat)) :=
  if G.num_node = 0 then some (0, fun _ => 0)
  else
    -- The container is filled from its end.
    markedColoring G.adjacent_vertices G.num_node (pop_heap (HCF G))
      (make_heap (HCF G) (List.range G.num_node).reverse)

/-! ## The marks -/

section Marks

variable {adjacent_vertices : Nat → List Nat} {V : Nat}

theorem foldlM_markNeighbour (i : Nat) (color : Nat → Nat) (l : List Nat)
    (mark : Nat → Option Nat) (hl : ∀ w ∈ l, color w < V) :
    ∃ mark', l.foldlM (markNeighbour V i color) mark = some mark' ∧
      (∀ w ∈ l, mark' (color w) = some i) ∧ ∀ c, mark' c = mark c ∨ mark' c = some i := by
  induction l generalizing mark with
  | nil => exact ⟨mark, rfl, fun w hw => absurd hw List.not_mem_nil, fun _ => .inl rfl⟩
  | cons v l ih =>
    obtain ⟨mark', hrun, hmarked, hother⟩ := ih (Function.update mark (color v) (some i))
      fun w hw => hl w (List.mem_cons_of_mem v hw)
    have hfirst : markNeighbour V i color mark v =
        some (Function.update mark (color v) (some i)) := if_pos (hl v List.mem_cons_self)
    have hself : mark' (color v) = some i := by
      rcases hother (color v) with heq | heq
      · rw [heq, Function.update_self]
      · exact heq
    refine ⟨mark', by rw [List.foldlM_cons, hfirst]; exact hrun, ?_, fun c => ?_⟩
    · intro w hw
      rcases List.mem_cons.mp hw with rfl | hw
      · exact hself
      · exact hmarked w hw
    · rcases eq_or_ne c (color v) with rfl | hne
      · exact .inr hself
      · exact (hother c).imp_left fun heq => heq.trans (Function.update_of_ne hne _ _)

/-- The scan stops at a color without the mark, or behind all colors in use. -/
theorem scanColors_spec (i : Nat) (mark : Nat → Option Nat) (left j : Nat) (hleft : left + j ≤ V) :
    ∃ c, scanColors V i mark left j = some c ∧ j ≤ c ∧ c ≤ left + j ∧
      (c < left + j → mark c ≠ some i) := by
  induction left generalizing j with
  | zero => exact ⟨j, rfl, Nat.le_refl j, by omega, fun h => absurd h (by omega)⟩
  | succ left ih =>
    rw [scanColors, if_pos (by omega)]
    by_cases hmark : mark j = some i
    · rw [if_pos hmark]
      obtain ⟨c, hrun, hle, hge, hfree⟩ := ih (j + 1) (by omega)
      exact ⟨c, hrun, by omega, by omega, fun h => hfree (by omega)⟩
    · rw [if_neg hmark]
      exact ⟨j, rfl, Nat.le_refl j, by omega, fun _ => hmark⟩

end Marks

/-! ## The loop -/

section Loop

variable {adjacent_vertices : Nat → List Nat} {V : Nat} {Adj : Nat → Nat → Prop}

/-- Before the turn `i`: the vertices so far have different colors where they are adjacent, the
others the last color of the table, and no mark is `i` yet. -/
structure Invariant (Adj : Nat → Nat → Prop) (V i : Nat) (done left : Nat → Prop) (st : Marked) :
    Prop where
  max_le : st.max_color ≤ i
  used : ∀ v, done v → st.color v < st.max_color
  unused : ∀ v, left v → st.color v = V - 1
  old : ∀ c k, st.mark c = some k → k < i
  apart : ∀ v w, done v → done w → v ≠ w → Adj v w → st.color v ≠ st.color w

theorem Invariant.colorVertex (hsymm : ∀ v w, Adj v w → Adj w v) {i current : Nat}
    {done left : Nat → Prop} {st : Marked} (h : Invariant Adj V i done left st) (hi : i < V)
    (hadj : ∀ w, w ∈ adjacent_vertices current ↔ Adj current w ∧ (done w ∨ left w))
    (hdone : ¬ done current) :
    ∃ st', colorVertex adjacent_vertices V current i st = some st' ∧
      Invariant Adj V (i + 1) (fun v => done v ∨ v = current)
        (fun v => left v ∧ v ≠ current) st' := by
  have hmax := h.max_le
  have hcolor : ∀ w ∈ adjacent_vertices current, st.color w < V := by
    intro w hw
    rcases ((hadj w).mp hw).2 with hd | hl
    · have := h.used w hd
      omega
    · rw [h.unused w hl]
      omega
  obtain ⟨mark, hmarks, hmarked, hother⟩ :=
    foldlM_markNeighbour i st.color (adjacent_vertices current) st.mark hcolor
  obtain ⟨j, hscan, -, hj, hfree⟩ := scanColors_spec (V := V) i mark st.max_color 0 (by omega)
  rw [Nat.add_zero] at hj hfree
  -- No neighbour with a color has this one.
  have hclear : ∀ w, done w → Adj current w → st.color w ≠ j := by
    rintro w hd hcw rfl
    exact hfree (h.used w hd) (hmarked w ((hadj w).mpr ⟨hcw, .inl hd⟩))
  have hne : ∀ v, done v → v ≠ current := fun v hd heq => hdone (heq ▸ hd)
  refine ⟨_, by rw [MarkedColoring.colorVertex, hmarks, Option.bind_some, hscan, Option.map_some],
    ⟨?_, ?_, ?_, ?_, ?_⟩⟩
  · dsimp only
    split_ifs <;> omega
  · rintro v (hd | rfl)
    · have hlt := h.used v hd
      dsimp only
      rw [Function.update_of_ne (hne v hd)]
      split_ifs <;> omega
    · dsimp only
      rw [Function.update_self]
      split_ifs <;> omega
  · rintro v ⟨hl, hvc⟩
    exact (Function.update_of_ne hvc _ _).trans (h.unused v hl)
  · intro c k hk
    rcases hother c with heq | heq
    · have := h.old c k (heq ▸ hk)
      omega
    · have hik : some i = some k := heq.symm.trans hk
      have := Option.some.inj hik
      omega
  · rintro v w (hdv | rfl) (hdw | rfl) hvw hadjvw
    · dsimp only
      rw [Function.update_of_ne (hne v hdv), Function.update_of_ne (hne w hdw)]
      exact h.apart v w hdv hdw hvw hadjvw
    · dsimp only
      rw [Function.update_of_ne (hne v hdv), Function.update_self]
      exact hclear v hdv (hsymm _ _ hadjvw)
    · dsimp only
      rw [Function.update_of_ne (hne w hdw), Function.update_self]
      exact (hclear w hdw hadjvw).symm
    · exact absurd rfl hvw

theorem Invariant.colorLoop (hsymm : ∀ v w, Adj v w → Adj w v) {S : Nat → Prop}
    (hadj : ∀ v, S v → ∀ w, w ∈ adjacent_vertices v ↔ Adj v w ∧ S w)
    {next : List Nat → List Nat} (hnext : ∀ v l, (next (v :: l)).Perm l) (count : Nat) :
    ∀ i container done st, container.length = count → i + count = V → container.Nodup →
      (∀ v ∈ container, ¬ done v) → (∀ v, S v ↔ done v ∨ v ∈ container) →
      Invariant Adj V i done (· ∈ container) st →
        ∃ st', colorLoop adjacent_vertices V next count i container st = some st' ∧
          Invariant Adj V V S (fun _ => False) st' := by
  induction count with
  | zero =>
    intro i container done st hlen hi _ _ hS h
    obtain rfl := List.length_eq_zero_iff.mp hlen
    obtain rfl : i = V := hi
    have hdone : ∀ v, S v → done v := fun v hv => by simpa using (hS v).mp hv
    exact ⟨st, rfl, h.max_le, fun v hv => h.used v (hdone v hv), fun _ => False.elim, h.old,
      fun v w hv hw => h.apart v w (hdone v hv) (hdone w hw)⟩
  | succ count ih =>
    intro i container done st hlen hi hnodup hnew hS h
    cases container with
    | nil => cases hlen
    | cons current rest =>
      obtain ⟨hcurrent, hrest⟩ := List.nodup_cons.mp hnodup
      have hperm := hnext current rest
      have hScurrent : S current := (hS current).mpr (.inr List.mem_cons_self)
      obtain ⟨st1, hrun, h1⟩ := h.colorVertex hsymm (by omega)
        (fun w => (hadj current hScurrent w).trans (and_congr_right' (hS w)))
        (hnew current List.mem_cons_self)
      rw [MarkedColoring.colorLoop, hrun, Option.bind_some]
      -- What is left is the rest, in some order.
      have hleft : ∀ v, v ∈ next (current :: rest) ↔ v ∈ current :: rest ∧ v ≠ current := by
        intro v
        rw [hperm.mem_iff, List.mem_cons]
        constructor
        · exact fun hv => ⟨.inr hv, fun heq => hcurrent (heq ▸ hv)⟩
        · exact fun hv => hv.1.resolve_left hv.2
      have hlen' : (next (current :: rest)).length = count := by
        rw [hperm.length_eq]
        simpa using hlen
      have hS' : ∀ v, S v ↔ (done v ∨ v = current) ∨ v ∈ next (current :: rest) := by
        intro v
        rw [hS, hleft]
        by_cases heq : v = current
        · simp [heq]
        · simp [heq]
      refine ih (i + 1) (next (current :: rest)) _ st1 hlen' (by omega) (hperm.nodup_iff.mpr hrest)
        ?_ hS' ⟨h1.max_le, h1.used, fun v hv => h1.unused v ((hleft v).mp hv), h1.old, h1.apart⟩
      rintro v hv (hd | heq)
      · exact hnew v ((hleft v).mp hv).1 hd
      · exact ((hleft v).mp hv).2 heq

/-- No index leaves the table, and adjacent vertices of the container get different colors. -/
theorem markedColoring_spec (hsymm : ∀ v w, Adj v w → Adj w v) {container : List Nat}
    (hadj : ∀ v ∈ container, ∀ w, w ∈ adjacent_vertices v ↔ Adj v w ∧ w ∈ container)
    {next : List Nat → List Nat} (hnext : ∀ v l, (next (v :: l)).Perm l)
    (hlen : container.length = V) (hnodup : container.Nodup) :
    ∃ k color, markedColoring adjacent_vertices V next container = some (k, color) ∧ k ≤ V ∧
      (∀ v ∈ container, color v < k) ∧
        ∀ v ∈ container, ∀ w ∈ container, v ≠ w → Adj v w → color v ≠ color w := by
  have hstart : Invariant Adj V 0 (fun _ => False) (· ∈ container)
      ⟨fun _ => V - 1, fun _ => none, 0⟩ :=
    { max_le := Nat.le_refl 0
      used := fun _ h => h.elim
      unused := fun _ _ => rfl
      old := fun _ _ h => by cases h
      apart := fun _ _ h => h.elim }
  obtain ⟨st, hrun, h⟩ := Invariant.colorLoop hsymm hadj hnext V 0 container _ _ hlen
    (Nat.zero_add V) hnodup (fun _ _ => id) (fun v => (false_or _).symm.to_iff) hstart
  exact ⟨st.max_color, st.color, by rw [markedColoring, hrun, Option.map_some], h.max_le, h.used,
    fun v hv w hw => h.apart v w hv hw⟩

end Loop

/-! ## The colorings -/

section Colorings

variable {G : ConflictGraph}

/-- `unsorted_coloring` on the vertices of a filter. -/
theorem unsorted_coloring_spec (hG : G.WellFormed) (support : Nat → Bool) :
    ∃ k color, unsorted_coloring G support = some (k, color) ∧
      k ≤ ((List.range G.num_node).filter support).length ∧
      (∀ v < G.num_node, support v = true → color v < k) ∧
        ∀ v < G.num_node, ∀ w < G.num_node, support v = true → support w = true → v ≠ w →
          G.Adj v w → color v ≠ color w := by
  have hmem : ∀ v, v ∈ (List.range G.num_node).filter support ↔
      v < G.num_node ∧ support v = true := fun v => by rw [List.mem_filter, List.mem_range]
  have hadj : ∀ v ∈ (List.range G.num_node).filter support, ∀ w,
      w ∈ (G.adjacent_vertices v).filter support ↔
        G.Adj v w ∧ w ∈ (List.range G.num_node).filter support := by
    intro v _ w
    rw [List.mem_filter, ConflictGraph.mem_adjacent_vertices, hmem]
    exact ⟨fun h => ⟨h.1, (hG.lt h.1).2, h.2⟩, fun h => ⟨h.1, h.2.2⟩⟩
  have hnext : ∀ (v : Nat) l, ((v :: l).tail).Perm l := fun _ l => List.Perm.refl l
  obtain ⟨k, color, hrun, hle, hlt, hapart⟩ := markedColoring_spec (fun _ _ => Or.symm) hadj hnext
    rfl (List.nodup_range.filter support)
  exact ⟨k, color, hrun, hle, fun v hv hs => hlt v ((hmem v).mpr ⟨hv, hs⟩),
    fun v hv w hw hsv hsw => hapart v ((hmem v).mpr ⟨hv, hsv⟩) w ((hmem w).mpr ⟨hw, hsw⟩)⟩

/-- `degree_coloring`, whatever the heap makes of the order. -/
theorem degree_coloring_spec (hG : G.WellFormed)
    {make_heap pop_heap : (Nat → Nat → Bool) → List Nat → List Nat}
    (hmake : ∀ cmp l, (make_heap cmp l).Perm l)
    (hpop : ∀ cmp v l, (pop_heap cmp (v :: l)).Perm l) :
    ∃ k color, degree_coloring make_heap pop_heap G = some (k, color) ∧
      (k = 0 ↔ G.num_node = 0) ∧ (∀ v < G.num_node, color v < k) ∧
        ∀ v < G.num_node, ∀ w < G.num_node, v ≠ w → G.Adj v w → color v ≠ color w := by
  unfold degree_coloring
  by_cases hzero : G.num_node = 0
  · rw [if_pos hzero]
    exact ⟨0, fun _ => 0, rfl, by simp [hzero], fun v hv => absurd hv (by omega),
      fun v hv => absurd hv (by omega)⟩
  · rw [if_neg hzero]
    have hperm := (hmake (HCF G) (List.range G.num_node).reverse).trans (List.reverse_perm _)
    have hmem : ∀ v, v ∈ make_heap (HCF G) (List.range G.num_node).reverse ↔ v < G.num_node :=
      fun v => by rw [hperm.mem_iff, List.mem_range]
    have hadj : ∀ v ∈ make_heap (HCF G) (List.range G.num_node).reverse, ∀ w,
        w ∈ G.adjacent_vertices v ↔
          G.Adj v w ∧ w ∈ make_heap (HCF G) (List.range G.num_node).reverse := by
      intro v _ w
      rw [ConflictGraph.mem_adjacent_vertices, hmem]
      exact ⟨fun h => ⟨h, (hG.lt h).2⟩, And.left⟩
    obtain ⟨k, color, hrun, -, hlt, hapart⟩ := markedColoring_spec (fun _ _ => Or.symm) hadj
      (hpop (HCF G)) (by rw [hperm.length_eq, List.length_range])
      (hperm.nodup_iff.mpr List.nodup_range)
    have hpos := hlt 0 ((hmem 0).mpr (by omega))
    exact ⟨k, color, hrun, by omega, fun v hv => hlt v ((hmem v).mpr hv),
      fun v hv w hw => hapart v ((hmem v).mpr hv) w ((hmem w).mpr hw)⟩

end Colorings

end MarkedColoring
end CliqueCovering
end Bambu
