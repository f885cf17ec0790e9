/-
  Bambu.Algorithms.CliqueCovering.MaxcliqueOptimal

  `maxclique_dsatur_coloring` returns the chromatic number.

  What is cut off at a level is measured against the proper colorings that continue the assignment
  with at least one color more than the highest in use: none of them is better than what is
  returned or saved.  A color above those in use may be exchanged for the next one.
-/

import Bambu.Algorithms.CliqueCovering.MaxcliqueDsatur

namespace Bambu
namespace CliqueCovering
namespace MaxcliqueDsatur

/-! ## The search -/

section Search

variable {G : ConflictGraph} {i current_color : Nat} {st st' : Helper}

/-- A coloring that continues the assignment, with at least one color more than the highest. -/
structure Continues (G : ConflictGraph) (i current_color : Nat) (st : Helper) (k : Nat)
    (f : Nat → Nat) : Prop where
  coloring : G.IsColoring k f
  lt : current_color < k
  agrees : ∀ u ∈ st.heap_container.take i, f u = st.ColorClass u

theorem Continues.of_kept {m k : Nat} {f : Nat → Nat} (h : Continues G i current_color st k f)
    (hkept : Kept i m st st') (him : i ≤ m) : Continues G i current_color st' k f := by
  refine ⟨h.coloring, h.lt, fun u hu => ?_⟩
  have hu := take_eq_of_le hkept.heap him ▸ hu
  rw [hkept.colors u hu, h.agrees u hu]

/-- What a call returns: no continuation has fewer colors than the value and the best coloring, and
a better value is that of a coloring of all vertices. -/
structure Returns (G : ConflictGraph) (i current_color : Nat) (st : Helper) (value : Nat)
    (st' : Helper) : Prop where
  inv : Invariant G i current_color st'
  kept : Kept i i st st'
  covers : ∀ k f, Continues G i current_color st k f → min value st'.BestColoring ≤ k
  complete : value < st'.BestColoring → i = G.num_node ∧ value = current_color + 1
  value_eq : value = current_color + 1 ∨ value = st'.BestColoring

/-- The call at the next level. -/
def CallsWell (G : ConflictGraph) (i : Nat) (rec : Nat → Helper → Option (Nat × Helper)) : Prop :=
  ∀ current_color st, Invariant G i current_color st →
    ∃ value st', rec current_color st = some (value, st') ∧
      Returns G i current_color st value st'

variable {rec : Nat → Helper → Option (Nat × Helper)}

/-- A color is tried: afterwards no continuation with this color is better than the best. -/
theorem Invariant.tryColor (hG : G.Simple) (hrec : CallsWell G (i + 1) rec)
    (h : Invariant G i current_color st) {place color next_color : Nat}
    (hplace : st.heap_container[i]? = some place)
    (hfree : ∀ u ∈ st.heap_container.take i, G.Adj place u → st.ColorClass u ≠ color)
    (hle : current_color ≤ next_color) (hcolor : color ≤ next_color) :
    ∃ st', tryColor G rec i place color next_color st = some st' ∧
      Invariant G i current_color st' ∧ Kept i (i + 1) st st' ∧
      ∀ k f, Continues G i next_color st k f → f place = color → st'.BestColoring ≤ k := by
  have hnew := h.notMem_take hplace
  obtain ⟨h1, hclass1, hheap1, hbest1⟩ := h.assign hG.nodup hplace hfree hle hcolor hG.loopless
  obtain ⟨value, st2, hrun2, hreturns⟩ := hrec next_color _ h1
  obtain ⟨h3, hclass3, hheap3, hbest3⟩ := hreturns.inv.save_colors hreturns.complete
  -- The vertex is still at its place.
  have htake2 : st2.heap_container.take (i + 1) = st.heap_container.take (i + 1) :=
    hreturns.kept.heap.trans (congrArg _ hheap1)
  have hplace3 : (MaxcliqueDsatur.save_colors G value st2).heap_container[i]? = some place := by
    rw [hheap3, ← List.getElem?_take_of_lt (Nat.lt_succ_self i), htake2,
      List.getElem?_take_of_lt (Nat.lt_succ_self i), hplace]
  have hmem : ∀ u ∈ st.heap_container.take i, u ∈ st.heap_container.take (i + 1) := fun u hu => by
    rw [take_succ_of_place hplace]
    exact List.mem_append_left _ hu
  have hclass2 : ∀ u ∈ st.heap_container.take (i + 1),
      st2.ColorClass u = Function.update st.ColorClass place color u := by
    intro u hu
    rw [← hclass1]
    exact hreturns.kept.colors u (by rw [note, hheap1]; exact hu)
  have hlast : place ∈ st.heap_container.take (i + 1) := by
    rw [take_succ_of_place hplace]
    exact List.mem_append_right _ (List.mem_singleton_self place)
  have hcolors2 : ∀ u ∈ st.heap_container.take i, st2.ColorClass u = st.ColorClass u :=
    fun u hu => (hclass2 u (hmem u hu)).trans
      (Function.update_of_ne (ne_of_mem_of_not_mem hu hnew) ..)
  have hcolor3 : (MaxcliqueDsatur.save_colors G value st2).ColorClass place = color := by
    rw [hclass3, hclass2 place hlast, Function.update_self]
  have hle3 : ∀ u ∈ (MaxcliqueDsatur.save_colors G value st2).heap_container.take i,
      (MaxcliqueDsatur.save_colors G value st2).ColorClass u ≤ current_color := by
    rw [hheap3, take_eq_of_le htake2 (Nat.le_succ i), hclass3]
    exact fun u hu => (hcolors2 u hu).trans_le (h.le u hu)
  obtain ⟨st4, hrun4, h4, hclass4, hheap4, hbest4⟩ := h3.remove hG.nodup hplace3 hcolor3 hle3
  refine ⟨note i st4, ?_, h4, ⟨?_, fun u hu => ?_, ?_⟩, fun k f hf hfp => ?_⟩
  · rw [MaxcliqueDsatur.tryColor, hrun2, Option.bind_some]
    dsimp only
    rw [hrun4, Option.map_some]
  · exact (congrArg _ (hheap4.trans hheap3)).trans htake2
  · dsimp only [note]
    rw [hclass4, Function.update_of_ne (ne_of_mem_of_not_mem hu hnew), hclass3, hcolors2 u hu]
  · dsimp only [note]
    rw [hbest4, hbest3]
    exact Nat.le_trans (Nat.min_le_right ..) (hreturns.kept.best.trans_eq hbest1)
  · dsimp only [note]
    rw [hbest4, hbest3]
    refine hreturns.covers k f ⟨hf.coloring, hf.lt, fun u hu => ?_⟩
    have hu : u ∈ st.heap_container.take (i + 1) := by
      rw [note, hheap1] at hu
      exact hu
    dsimp only [note]
    rw [hclass1]
    rw [take_succ_of_place hplace] at hu
    rcases List.mem_append.mp hu with hu | hu
    · rw [Function.update_of_ne (ne_of_mem_of_not_mem hu hnew), hf.agrees u hu]
    · rw [List.mem_singleton.mp hu, Function.update_self, hfp]

/-- A counter is zero exactly if the color is free. -/
theorem Invariant.free_iff (h : Invariant G i current_color st) (place c : Nat) :
    st.ColorAdj place c = 0 ↔
      ∀ u ∈ st.heap_container.take i, G.Adj place u → st.ColorClass u ≠ c := by
  have hexact : st.ColorAdj place c = _ := h.exact place c
  rw [hexact, Finset.card_eq_zero, Finset.eq_empty_iff_forall_notMem]
  refine forall_congr' fun u => ?_
  rw [colouredNeighbours, Finset.mem_filter, List.mem_toFinset,
    ConflictGraph.mem_adjacent_vertices, snapshot]
  tauto

/-- The colors in use are tried: either no continuation of the level is better any more, or none
with one of these colors. -/
theorem Invariant.colorLoop (hG : G.Simple) (hrec : CallsWell G (i + 1) rec) {place : Nat}
    {js : List Nat} (hjs : ∀ j ∈ js, j ≤ current_color) :
    ∀ {st : Helper}, Invariant G i current_color st → st.heap_container[i]? = some place →
      ∃ stop st', colorLoop G rec i place current_color js st = some (stop, st') ∧
        Invariant G i current_color st' ∧ Kept i (i + 1) st st' ∧
        (stop = true → st'.BestColoring ≤ current_color) ∧
        (stop = false → ∀ k f, Continues G i current_color st k f → f place ∈ js →
          st'.BestColoring ≤ k) := by
  induction js with
  | nil =>
    intro st h _
    exact ⟨false, st, rfl, h, ⟨rfl, fun _ _ => rfl, Nat.le_refl _⟩, nofun,
      fun _ k f _ hmem => absurd hmem List.not_mem_nil⟩
  | cons j js ih =>
    intro st h hplace
    have hjs' : ∀ j ∈ js, j ≤ current_color := fun c hc => hjs c (List.mem_cons_of_mem j hc)
    rw [MaxcliqueDsatur.colorLoop]
    by_cases hfree : st.ColorAdj place j = 0
    · rw [if_pos hfree]
      obtain ⟨st1, hrun1, h1, hkept1, hcovers1⟩ := h.tryColor hG hrec hplace
        ((h.free_iff place j).mp hfree) (Nat.le_refl _) (hjs j List.mem_cons_self)
      rw [hrun1, Option.bind_some]
      by_cases hbest : st1.BestColoring ≤ current_color
      · rw [if_pos hbest]
        exact ⟨true, st1, rfl, h1, hkept1, fun _ => hbest, nofun⟩
      · rw [if_neg hbest]
        have hplace1 : st1.heap_container[i]? = some place := by
          rw [← List.getElem?_take_of_lt (Nat.lt_succ_self i), hkept1.heap,
            List.getElem?_take_of_lt (Nat.lt_succ_self i), hplace]
        obtain ⟨stop, st2, hrun2, h2, hkept2, hstop2, hcovers2⟩ := ih hjs' h1 hplace1
        refine ⟨stop, st2, hrun2, h2, hkept1.trans hkept2 (Nat.le_succ i), hstop2,
          fun hstop k f hf hmem => ?_⟩
        rcases List.mem_cons.mp hmem with hj | hmem
        · exact Nat.le_trans hkept2.best (hcovers1 k f hf hj)
        · exact hcovers2 hstop k f (hf.of_kept hkept1 (Nat.le_succ i)) hmem
    · rw [if_neg hfree]
      obtain ⟨stop, st2, hrun2, h2, hkept2, hstop2, hcovers2⟩ := ih hjs' h hplace
      refine ⟨stop, st2, hrun2, h2, hkept2, hstop2, fun hstop k f hf hmem => ?_⟩
      rcases List.mem_cons.mp hmem with hj | hmem
      · -- A neighbour has this color already.
        obtain ⟨u, hu, hadj, hclass⟩ : ∃ u ∈ st.heap_container.take i,
            G.Adj place u ∧ st.ColorClass u = j := by
          by_contra hnone
          exact hfree ((h.free_iff place j).mpr fun u hu hadj heq => hnone ⟨u, hu, hadj, heq⟩)
        have hplace' := List.mem_range.mp (h.perm.mem_iff.mp (List.mem_of_getElem? hplace))
        refine absurd ?_ (hf.coloring.apart place hplace' u (h.lt hu) hadj)
        rw [hj, hf.agrees u hu, hclass]
      · exact hcovers2 hstop k f hf hmem

/-- Two colors above those in use may be exchanged. -/
theorem Continues.swap {k : Nat} {f : Nat → Nat} (h : Continues G i current_color st k f)
    (hinv : Invariant G i current_color st) {place : Nat} (hplace : place < G.num_node)
    (hlt : current_color < f place) :
    Continues G i (current_color + 1) st k
      (Equiv.swap (f place) (current_color + 1) ∘ f) := by
  have hk := h.coloring.lt place hplace
  refine ⟨⟨fun v hv => ?_, fun v hv w hw hadj heq => ?_⟩, Nat.lt_of_le_of_lt hlt hk,
    fun u hu => ?_⟩
  · have hv := h.coloring.lt v hv
    rw [Function.comp_apply, Equiv.swap_apply_def]
    split_ifs <;> omega
  · exact h.coloring.apart v hv w hw hadj ((Equiv.swap _ _).injective heq)
  · have hu' := hinv.le u hu
    rw [Function.comp_apply, h.agrees u hu]
    exact Equiv.swap_apply_of_ne_of_ne (by omega) (by omega)

/-- The heap is rebuilt behind the assigned vertices. -/
theorem Invariant.rebuild {make_heap : (Nat → Nat → Bool) → List Nat → List Nat}
    (hheap : ∀ cmp l, (make_heap cmp l).Perm l) (h : Invariant G i current_color st)
    (hi : i < G.num_node) :
    ∃ heap place, heap = st.heap_container.take i ++
        make_heap (HCF st) (st.heap_container.drop i) ∧ heap[i]? = some place ∧
      Invariant G i current_color { st with heap_container := heap } ∧
      Kept i i st { st with heap_container := heap } := by
  have hlen : st.heap_container.length = G.num_node := by
    rw [h.perm.length_eq, List.length_range]
  have hperm := hheap (HCF st) (st.heap_container.drop i)
  generalize hheapEq : st.heap_container.take i ++
    make_heap (HCF st) (st.heap_container.drop i) = heap
  have hall : heap.Perm st.heap_container := by
    rw [← hheapEq]
    exact (hperm.append_left _).trans (List.Perm.of_eq (List.take_append_drop ..))
  have htake : heap.take i = st.heap_container.take i := by
    rw [← hheapEq]
    exact List.take_left' (List.length_take_of_le (hlen ▸ Nat.le_of_lt hi))
  have hget : i < heap.length := by rw [hall.length_eq, hlen]; exact hi
  refine ⟨heap, heap[i], rfl, List.getElem?_eq_getElem hget, ?_, htake, fun _ _ => rfl,
    Nat.le_refl _⟩
  refine ⟨hall.trans h.perm, ?_, ?_, ?_, h.saved, h.history⟩
  · rw [snapshot, htake]
    exact h.exact
  · rw [htake]
    exact h.le
  · rw [htake]
    exact h.apart

theorem Kept.refl (i m : Nat) (st : Helper) : Kept i m st st :=
  ⟨rfl, fun _ _ => rfl, Nat.le_refl _⟩

/-- The tests before the selection cut off no better coloring. -/
theorem Invariant.cut {lb value : Nat} (hlb : ∀ k f, G.IsColoring k f → lb ≤ k)
    (h : Invariant G i current_color st) (hcut : cut lb current_color st = some value) :
    Returns G i current_color st value st := by
  unfold MaxcliqueDsatur.cut at hcut
  constructor
  case inv => exact h
  case kept => exact Kept.refl i i st
  case covers =>
    intro k f hf
    have hle := hlb k f hf.coloring
    have hk := hf.lt
    split_ifs at hcut <;> cases hcut <;> omega
  case complete =>
    intro hlt
    split_ifs at hcut <;> cases hcut <;> omega
  case value_eq => split_ifs at hcut <;> cases hcut <;> simp

/-- The search below a level. -/
theorem SeqColorRec_spec (hG : G.Simple) {make_heap : (Nat → Nat → Bool) → List Nat → List Nat}
    (hheap : ∀ cmp l, (make_heap cmp l).Perm l) {lb : Nat}
    (hlb : ∀ k f, G.IsColoring k f → lb ≤ k) {left : Nat} :
    ∀ {i}, i + left = G.num_node → CallsWell G i (SeqColorRec G make_heap lb left) := by
  induction left with
  | zero =>
    intro i hi current_color st h
    rw [SeqColorRec]
    cases hcut : MaxcliqueDsatur.cut lb current_color st with
    | some value => exact ⟨value, st, rfl, h.cut hlb hcut⟩
    | none =>
      -- All vertices are assigned.
      exact ⟨current_color + 1, st, rfl, h, Kept.refl i i st,
        fun k f hf => Nat.le_trans (Nat.min_le_left ..) hf.lt, fun _ => ⟨hi, rfl⟩, .inl rfl⟩
  | succ left ih =>
    intro i hi current_color st h
    rw [SeqColorRec]
    cases hcut : MaxcliqueDsatur.cut lb current_color st with
    | some value => exact ⟨value, st, rfl, h.cut hlb hcut⟩
    | none =>
      obtain rfl : G.num_node - (left + 1) = i := by omega
      have hlt : G.num_node - (left + 1) < G.num_node := by omega
      have hrec := ih (i := G.num_node - (left + 1) + 1) (by omega)
      obtain ⟨heap, place, hheapEq, hplace, h1, hkept1⟩ := h.rebuild hheap hlt
      dsimp only
      rw [← hheapEq, hplace, Option.bind_some]
      have hjs : ∀ j ∈ List.range (current_color + 1), j ≤ current_color := fun j hj =>
        Nat.le_of_lt_succ (List.mem_range.mp hj)
      obtain ⟨stop, st2, hrun2, h2, hkept2, hstop, hcovers2⟩ :=
        Invariant.colorLoop hG hrec hjs h1 hplace
      rw [hrun2, Option.bind_some]
      generalize hlevel : G.num_node - (left + 1) = i at *
      have hkept : Kept i i st st2 :=
        hkept1.trans (hkept2.mono (Nat.le_succ i)) (Nat.le_refl i)
      have hplacelt : place < G.num_node :=
        List.mem_range.mp (h1.perm.mem_iff.mp (List.mem_of_getElem? hplace))
      -- What is returned is the best coloring.
      have hreturn : ∀ {st'}, Invariant G i current_color st' → Kept i i st st' →
          (∀ k f, Continues G i current_color st k f → st'.BestColoring ≤ k) →
            Returns G i current_color st st'.BestColoring st' := fun hinv hkept hcovers =>
        ⟨hinv, hkept, fun k f hf => (Nat.min_self _).trans_le (hcovers k f hf),
          fun hbest => absurd hbest (Nat.lt_irrefl _), .inr rfl⟩
      dsimp only
      cases stop with
      | true =>
        refine ⟨_, st2, rfl, hreturn h2 hkept fun k f hf => ?_⟩
        exact Nat.le_trans (hstop rfl) (Nat.le_of_lt hf.lt)
      | false =>
        have hused : ∀ k f, Continues G i current_color st k f → f place ≤ current_color →
            st2.BestColoring ≤ k := fun k f hf hle =>
          hcovers2 rfl k f (hf.of_kept hkept1 (Nat.le_refl i))
            (List.mem_range.mpr (Nat.lt_succ_of_le hle))
        rw [if_neg Bool.false_ne_true]
        by_cases hnew : current_color + 2 < st2.BestColoring
        · rw [if_pos hnew]
          have hplace2 : st2.heap_container[i]? = some place := by
            rw [← List.getElem?_take_of_lt (Nat.lt_succ_self i), hkept2.heap,
              List.getElem?_take_of_lt (Nat.lt_succ_self i), hplace]
          have hfree : ∀ u ∈ st2.heap_container.take i, G.Adj place u →
              st2.ColorClass u ≠ current_color + 1 := fun u hu _ =>
            Nat.ne_of_lt (Nat.lt_succ_of_le (h2.le u hu))
          obtain ⟨st3, hrun3, h3, hkept3, hcovers3⟩ := h2.tryColor hG hrec hplace2 hfree
            (Nat.le_succ current_color) (Nat.le_refl (current_color + 1))
          rw [hrun3, Option.map_some]
          refine ⟨_, st3, rfl, hreturn h3 (hkept.trans (hkept3.mono (Nat.le_succ i))
            (Nat.le_refl i)) fun k f hf => ?_⟩
          rcases Nat.lt_or_ge current_color (f place) with habove | hle
          · have hf2 := hf.of_kept hkept (Nat.le_refl i)
            refine hcovers3 k _ (hf2.swap h2 hplacelt habove) ?_
            rw [Function.comp_apply, Equiv.swap_apply_left]
          · exact Nat.le_trans hkept3.best (hused k f hf hle)
        · rw [if_neg hnew]
          refine ⟨_, st2, rfl, hreturn h2 hkept fun k f hf => ?_⟩
          rcases Nat.lt_or_ge current_color (f place) with habove | hle
          · have hk := hf.coloring.lt place hplacelt
            omega
          · exact hused k f hf hle

end Search

/-! ## The chromatic number -/

section Optimal

variable {G : ConflictGraph}

/-- The graph on its nodes. -/
def toSimpleGraph (G : ConflictGraph) : SimpleGraph (Fin G.num_node) where
  Adj v w := v ≠ w ∧ G.Adj v w
  symm := ⟨fun _ _ h => ⟨h.1.symm, h.2.symm⟩⟩
  loopless := ⟨fun _ h => h.1 rfl⟩

theorem colorable_iff (hloop : ∀ v, ¬ G.Adj v v) {k : Nat} :
    (toSimpleGraph G).Colorable k ↔ ∃ f, G.IsColoring k f := by
  constructor
  · rintro ⟨c⟩
    refine ⟨fun v => if hv : v < G.num_node then c ⟨v, hv⟩ else 0, fun v hv => ?_,
      fun v hv w hw hadj heq => ?_⟩
    · rw [dif_pos hv]
      exact (c ⟨v, hv⟩).isLt
    · rw [dif_pos hv, dif_pos hw] at heq
      refine c.valid (v := ⟨v, hv⟩) (w := ⟨w, hw⟩) ⟨fun hvw => ?_, hadj⟩ (Fin.ext heq)
      rw [Fin.mk.injEq] at hvw
      exact hloop v (hvw ▸ hadj)
  · rintro ⟨f, hf⟩
    refine ⟨SimpleGraph.Coloring.mk (fun v => ⟨f v, hf.lt v v.isLt⟩) fun {v w} hadj heq => ?_⟩
    exact hf.apart v v.isLt w w.isLt hadj.2 (Fin.mk.inj heq)

/-- With as few colors as possible each of them is used. -/
theorem surjective_of_isColoring (hloop : ∀ v, ¬ G.Adj v v) {k : Nat} {f : Nat → Nat}
    (hk : (toSimpleGraph G).chromaticNumber = k) (hf : G.IsColoring k f) :
    ∀ c < k, ∃ v < G.num_node, f v = c := by
  intro c hc
  have hcolorable := (colorable_iff hloop).mpr ⟨f, hf⟩
  have hsurj := (SimpleGraph.chromaticNumber_eq_iff_forall_surjective hcolorable).mp hk
  obtain ⟨v, hv⟩ := hsurj (SimpleGraph.Coloring.mk (fun v => ⟨f v, hf.lt v v.isLt⟩)
    fun {v w} hadj heq => hf.apart v v.isLt w w.isLt hadj.2 (Fin.mk.inj heq)) ⟨c, hc⟩
  exact ⟨v, v.isLt, Fin.mk.inj hv⟩

/-- The three searches. -/
theorem searches_spec (hG : G.Simple) {make_heap : (Nat → Nat → Bool) → List Nat → List Nat}
    (hheap : ∀ cmp l, (make_heap cmp l).Perm l) (hpos : 0 < G.num_node) (color : Nat → Nat) :
    ∃ run, searches G make_heap color = some run ∧ G.IsColoring run.val run.last.CM ∧
      (∀ k f, G.IsColoring k f → run.greedy ≤ k ∧ run.lb ≤ k ∧ run.val ≤ k) ∧
      run.last.BestColoring = run.val ∧ ∀ s ∈ run.last.history, Exact G s := by
  obtain ⟨clique, hgreedy, hclique⟩ := CliqueBound.MaxCliqueGreedy_spec hG hpos
  have hextends : CliqueBound.Extends G ∅ (Finset.range G.num_node) :=
    ⟨CliqueBound.isClique_empty, fun v => Finset.mem_range.mp,
      fun _ _ _ hw => absurd hw (Finset.notMem_empty _)⟩
  have hvalid : CliqueBound.Valid G ⟨clique, G.num_node + 1, color⟩ := ⟨hclique, .inl rfl⟩
  have hfuel : (Finset.range G.num_node).card < G.num_node + 1 := by
    rw [Finset.card_range]
    exact Nat.lt_succ_self _
  obtain ⟨lb, found, hrec, hvalid, ⟨S, hS, rfl⟩, -, hbest⟩ :=
    CliqueBound.MaxCliqueRec_spec hG G.num_node hextends hvalid hfuel
  have hlb : ∀ k f, G.IsColoring k f → S.card ≤ k := fun k f hf =>
    CliqueBound.card_le_of_isColoring hS hf
  -- The search for a clique has saved a coloring.
  have hsaved : G.IsColoring found.BestColoring found.CM := by
    refine hvalid.saved.resolve_left fun heq => ?_
    have hle := hbest rfl hpos
    omega
  have hstart : Invariant G 0 0 (start G found) := by
    refine ⟨List.Perm.refl _, fun w c => ?_, fun _ hu => absurd hu List.not_mem_nil,
      fun _ hu => absurd hu List.not_mem_nil, hsaved, fun _ hs => absurd hs List.not_mem_nil⟩
    rw [eq_comm]
    refine Finset.card_eq_zero.mpr (Finset.filter_eq_empty_iff.mpr fun u _ hu => ?_)
    exact List.not_mem_nil hu.1
  obtain ⟨val, last, hrun, hreturns⟩ :=
    SeqColorRec_spec hG hheap hlb (Nat.zero_add _) 0 (start G found) hstart
  have hcontinues : ∀ k f, G.IsColoring k f → Continues G 0 0 (start G found) k f :=
    fun k f hf => ⟨hf, Nat.lt_of_le_of_lt (Nat.zero_le _) (hf.lt 0 hpos),
      fun _ hu => absurd hu List.not_mem_nil⟩
  -- The value is that of the best coloring, also where the first test returns it.
  have hbestpos := hreturns.inv.saved.lt 0 hpos
  have hge : last.BestColoring ≤ val := by
    refine Nat.le_of_not_lt fun hlt => ?_
    exact absurd (hreturns.complete hlt).1 (Nat.ne_of_lt hpos)
  have hval : last.BestColoring = val := by
    rcases hreturns.value_eq with heq | heq <;> omega
  refine ⟨⟨clique.card, S.card, val, last⟩, ?_, ?_, fun k f hf => ⟨?_, hlb k f hf, ?_⟩, hval,
    hreturns.inv.history⟩
  · rw [searches, hgreedy, Option.bind_some, hrec, Option.bind_some]
    dsimp only
    rw [hrun, Option.map_some]
  · exact hval ▸ hreturns.inv.saved
  · exact CliqueBound.card_le_of_isColoring hclique hf
  · have hcovers := hreturns.covers k f (hcontinues k f hf)
    rwa [hval, Nat.min_self] at hcovers

/-- The result is the chromatic number, and the coloring has exactly so many colors. -/
theorem maxclique_dsatur_coloring_optimal (G : ConflictGraph) (hG : G.Simple)
    (make_heap : (Nat → Nat → Bool) → List Nat → List Nat)
    (hheap : ∀ cmp l, (make_heap cmp l).Perm l) (color : Nat → Nat) :
    ∃ k f, maxclique_dsatur_coloring G make_heap color = some (k, f) ∧
      (toSimpleGraph G).chromaticNumber = k ∧ G.IsColoring k f ∧
      (∀ c < k, ∃ v < G.num_node, f v = c) ∧
      (0 < G.num_node → ∃ run, searches G make_heap color = some run ∧ run.greedy ≤ k ∧
        run.lb ≤ k ∧ run.last.BestColoring = k ∧ ∀ s ∈ run.last.history, Exact G s) := by
  -- A coloring with as few colors as possible has the chromatic number of colors.
  have hchromatic : ∀ {k f}, G.IsColoring k f → (∀ m g, G.IsColoring m g → k ≤ m) →
      (toSimpleGraph G).chromaticNumber = k := by
    intro k f hf hmin
    refine le_antisymm ((colorable_iff hG.loopless).mpr ⟨f, hf⟩).chromaticNumber_le ?_
    refine SimpleGraph.le_chromaticNumber_iff_colorable.mpr fun m hm => ?_
    obtain ⟨g, hg⟩ := (colorable_iff hG.loopless).mp hm
    exact hmin m g hg
  unfold maxclique_dsatur_coloring
  by_cases hzero : G.num_node = 0
  · rw [if_pos hzero]
    have hempty : G.IsColoring 0 color :=
      ⟨fun v hv => absurd hv (by omega), fun v hv => absurd hv (by omega)⟩
    exact ⟨0, color, rfl, hchromatic hempty fun _ _ _ => Nat.zero_le _, hempty,
      fun c hc => absurd hc (Nat.not_lt_zero c), fun hpos => absurd hpos (by omega)⟩
  · rw [if_neg hzero]
    have hpos := Nat.pos_of_ne_zero hzero
    obtain ⟨run, hrun, hcoloring, hmin, hbest, hhistory⟩ := searches_spec hG hheap hpos color
    have hk := hchromatic hcoloring fun m g hg => (hmin m g hg).2.2
    obtain ⟨hgreedy, hlb, -⟩ := hmin _ _ hcoloring
    exact ⟨run.val, run.last.CM, by rw [hrun, Option.map_some], hk, hcoloring,
      surjective_of_isColoring hG.loopless hk hcoloring,
      fun _ => ⟨run, hrun, hgreedy, hlb, hbest, hhistory⟩⟩

theorem maxclique_dsatur_coloring_optimal_edge :
    ∃ k f, maxclique_dsatur_coloring ⟨2, [(0, 1)]⟩ (fun cmp => swapTwo fun a b => !cmp a b)
        (fun _ => 0) = some (k, f) ∧
      (toSimpleGraph ⟨2, [(0, 1)]⟩).chromaticNumber = k ∧
      ConflictGraph.IsColoring ⟨2, [(0, 1)]⟩ k f ∧ (∀ c < k, ∃ v < 2, f v = c) ∧
      (0 < 2 → ∃ run, searches ⟨2, [(0, 1)]⟩ (fun cmp => swapTwo fun a b => !cmp a b)
          (fun _ => 0) = some run ∧ run.greedy ≤ k ∧ run.lb ≤ k ∧ run.last.BestColoring = k ∧
        ∀ s ∈ run.last.history, Exact ⟨2, [(0, 1)]⟩ s) :=
  maxclique_dsatur_coloring_optimal ⟨2, [(0, 1)]⟩
    { wellFormed := by unfold ConflictGraph.WellFormed; decide
      loopless := by
        intro v
        simp [ConflictGraph.Adj]
        omega
      nodup := by
        intro v
        by_cases h0 : 0 = v <;> by_cases h1 : 1 = v <;>
          simp [ConflictGraph.adjacent_vertices, h0, h1]
        omega }
    (fun cmp => swapTwo fun a b => !cmp a b) (fun _ => swapTwo_perm _) fun _ => 0

end Optimal

end MaxcliqueDsatur
end CliqueCovering
end Bambu
