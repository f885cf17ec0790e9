/-
  Bambu.HLS.ChordalColoringRegister

  `chordal_coloring_register`: a lexicographic breadth-first search orders the storage values, and
  the sequential coloring goes through them in that order.

  The search fills the order from its end, and the coloring reads it from its front.
-/

import Bambu.Algorithms.CliqueCovering.Dsatur2Coloring
import Mathlib.Combinatorics.SimpleGraph.Clique
import Mathlib.Data.Fintype.Perm

namespace Bambu
namespace HLS
namespace ChordalColoringRegister

open CliqueCovering (ConflictGraph)

/-! ## The model -/

/-- The loop over the common positions, and the comparison of the sizes after it. -/
def lex_compare_gt : List Nat → List Nat → Bool
  | [], _ => false
  | _ :: _, [] => true
  | a :: v1, b :: v2 =>
    if a > b then true else if a < b then false else lex_compare_gt v1 v2

/-- The vectors of the search; `seq` is none where it holds `NO_ORDER`. -/
structure Search where
  vertex_order : Nat → Nat
  label : Nat → List Nat
  seq : Nat → Option Nat

def Search.start : Search := ⟨fun _ => 0, fun _ => [], fun _ => none⟩

/-- One index of the search for the vertex with maximum label. -/
def compareVertex (st : Search) (vx_index : Option Nat) (vindex : Nat) : Option Nat :=
  if st.seq vindex = none then
    match vx_index with
    | none => some vindex
    | some vx => if lex_compare_gt (st.label vindex) (st.label vx) then some vindex else some vx
  else vx_index

def findMaximal (n : Nat) (st : Search) : Option Nat :=
  (List.range n).foldl (compareVertex st) none

/-- One neighbour of the vertex that gets the number. -/
def appendLabel (seq : Nat → Option Nat) (i : Nat) (label : Nat → List Nat) (vindex : Nat) :
    Nat → List Nat :=
  if seq vindex = none ∧ i ∉ label vindex then
    Function.update label vindex (label vindex ++ [i])
  else label

/-- The body of the loop; none is the assertion "maximal not found". -/
def numberVertex (cg : ConflictGraph) (i : Nat) (st : Search) : Option Search :=
  (findMaximal cg.num_node st).map fun vx_index =>
    let seq := Function.update st.seq vx_index (some i)
    { seq := seq
      vertex_order := Function.update st.vertex_order i vx_index
      label := (cg.adjacent_vertices vx_index).foldl (appendLabel seq i) st.label }

/-- The loop that gives out the numbers below one, from the largest down. -/
def numberVertices (cg : ConflictGraph) : Nat → Search → Option Search
  | 0, st => some st
  | i + 1, st => (numberVertex cg i st).bind (numberVertices cg i)

/-- What the binding is made from: the order, the number of colors, and the color of each storage
value. -/
structure Binding where
  vertex_order : Nat → Nat
  num_colors : Nat
  color : Nat → Nat

/-- `RegisterBinding`, with the sequential coloring of the library. -/
def RegisterBinding (sequential_vertex_coloring : ConflictGraph → (Nat → Nat) → Nat × (Nat → Nat))
    (cg : ConflictGraph) : Option Binding :=
  (numberVertices cg cg.num_node .start).map fun st =>
    let (num_colors, color) := sequential_vertex_coloring cg st.vertex_order
    ⟨st.vertex_order, num_colors, color⟩

/-! ## What is asked of the coloring -/

/-- Each vertex once. -/
def IsOrder (n : Nat) (order : Nat → Nat) : Prop := Set.BijOn order (Set.Iio n) (Set.Iio n)

/-- The sequential coloring: each vertex of the order gets the least color that its neighbours
before it leave, and the colors are counted. -/
structure ColorsGreedily
    (sequential_vertex_coloring : ConflictGraph → (Nat → Nat) → Nat × (Nat → Nat)) : Prop where
  least : ∀ G order, IsOrder G.num_node order → ∀ k < G.num_node,
    IsLeast {c | ∀ j < k, G.Adj (order j) (order k) →
        (sequential_vertex_coloring G order).2 (order j) ≠ c}
      ((sequential_vertex_coloring G order).2 (order k))
  count : ∀ G order, IsOrder G.num_node order →
    IsLeast {m | ∀ v < G.num_node, (sequential_vertex_coloring G order).2 v < m}
      (sequential_vertex_coloring G order).1

/-- The conflict graph of a graph whose vertices have got numbers. -/
def Presents {n : Nat} (cg : ConflictGraph) (H : SimpleGraph (Fin n))
    (number : Equiv.Perm (Fin n)) : Prop :=
  cg.num_node = n ∧
    ∀ i j, cg.Adj i j ↔ ∃ a b, H.Adj a b ∧ i = (number a).val ∧ j = (number b).val

/-- Every vertex's neighbours before it are adjacent to each other. -/
def PreviousAdjacent (cg : ConflictGraph) (order : Nat → Nat) : Prop :=
  ∀ k < cg.num_node, ∀ i < k, ∀ j < k, i ≠ j → cg.Adj (order i) (order k) →
    cg.Adj (order j) (order k) → cg.Adj (order i) (order j)

/-- The sizes of the cliques of a graph. -/
def cliqueSizes {V : Type} (H : SimpleGraph V) : Set Nat :=
  {k | ∃ s : Finset V, H.IsClique s ∧ s.card = k}

/-- The binding is optimal: as many colors as the largest clique has members, because of the
direction in which the order is read. -/
def Optimal (sequential_vertex_coloring : ConflictGraph → (Nat → Nat) → Nat × (Nat → Nat))
    {n : Nat} (H : SimpleGraph (Fin n)) (cg : ConflictGraph) : Prop :=
  ∃ b, RegisterBinding sequential_vertex_coloring cg = some b ∧
    IsGreatest (cliqueSizes H) b.num_colors ∧ PreviousAdjacent cg b.vertex_order

/-- Every cycle longer than three has a chord. -/
def Chordal {V : Type} (H : SimpleGraph V) : Prop :=
  ∀ (k : Nat) (cycle : Fin (k + 4) → V), Function.Injective cycle →
    (∀ i, H.Adj (cycle i) (cycle (i + 1))) →
      ∃ i j, j ≠ i + 1 ∧ i ≠ j + 1 ∧ H.Adj (cycle i) (cycle j)

/-! ## The search numbers every vertex -/

section Search

variable {cg : ConflictGraph}

theorem foldl_compareVertex_spec (st : Search) (l : List Nat) (vx_index : Option Nat)
    (hvx : ∀ v ∈ vx_index, st.seq v = none) :
    (∀ v ∈ l.foldl (compareVertex st) vx_index, st.seq v = none ∧ (v ∈ vx_index ∨ v ∈ l)) ∧
      ((vx_index.isSome ∨ ∃ v ∈ l, st.seq v = none) →
        (l.foldl (compareVertex st) vx_index).isSome) := by
  induction l generalizing vx_index with
  | nil => exact ⟨fun v hv => ⟨hvx v hv, .inl hv⟩, fun h => h.elim id (by simp)⟩
  | cons w l ih =>
    have hstep : (∀ v ∈ compareVertex st vx_index w, st.seq v = none ∧ (v ∈ vx_index ∨ v = w)) ∧
        ((vx_index.isSome ∨ st.seq w = none) → (compareVertex st vx_index w).isSome) := by
      unfold compareVertex
      by_cases hw : st.seq w = none
      · rw [if_pos hw]
        cases vx_index with
        | none => simp [hw]
        | some vx =>
          have hnone : st.seq vx = none := hvx vx rfl
          cases hgt : lex_compare_gt (st.label w) (st.label vx) <;> simp [hw, hnone, hgt]
      · rw [if_neg hw]
        exact ⟨fun v hv => ⟨hvx v hv, .inl hv⟩, fun h => h.resolve_right hw⟩
    obtain ⟨hmem, hsome⟩ := ih (compareVertex st vx_index w) fun v hv => (hstep.1 v hv).1
    refine ⟨fun v hv => ?_, fun h => hsome ?_⟩
    · obtain ⟨hseq, hold | hv⟩ := hmem v hv
      · exact ⟨hseq, (hstep.1 v hold).2.imp_right fun heq => List.mem_cons.mpr (.inl heq)⟩
      · exact ⟨hseq, .inr (List.mem_cons_of_mem w hv)⟩
    · rcases h with hs | ⟨v, hv, hseq⟩
      · exact .inl (hstep.2 (.inl hs))
      · rcases List.mem_cons.mp hv with rfl | hv
        · exact .inl (hstep.2 (.inr hseq))
        · exact .inr ⟨v, hv, hseq⟩

/-- A vertex without a number is found, if there is one. -/
theorem findMaximal_spec {n : Nat} {st : Search} (h : ∃ v < n, st.seq v = none) :
    ∃ vx, findMaximal n st = some vx ∧ vx < n ∧ st.seq vx = none := by
  obtain ⟨hmem, hsome⟩ := foldl_compareVertex_spec st (List.range n) none (by simp)
  obtain ⟨v, hv, hseq⟩ := h
  obtain ⟨vx, hvx⟩ := Option.isSome_iff_exists.mp
    (hsome (.inr ⟨v, List.mem_range.mpr hv, hseq⟩))
  obtain ⟨hnone, hin⟩ := hmem vx hvx
  exact ⟨vx, hvx, List.mem_range.mp (hin.resolve_left (by simp)), hnone⟩

/-- Before any number is given out, the labels are empty and the first vertex is taken. -/
theorem findMaximal_start {n : Nat} (hn : 0 < n) : findMaximal n .start = some 0 := by
  obtain ⟨m, rfl⟩ := Nat.exists_eq_succ_of_ne_zero hn.ne'
  have hkeep : ∀ l : List Nat, l.foldl (compareVertex .start) (some 0) = some 0 := by
    intro l
    induction l with
    | nil => rfl
    | cons w l ih => exact ih
  rw [findMaximal, List.range_succ_eq_map]
  exact hkeep _

/-- The numbers from one on are given out, each to one vertex. -/
structure Filled (n i : Nat) (st : Search) : Prop where
  numbered : ∀ k, i ≤ k → k < n → st.vertex_order k < n ∧ st.seq (st.vertex_order k) = some k
  place : ∀ v k, st.seq v = some k → i ≤ k ∧ k < n ∧ st.vertex_order k = v

theorem Filled.exists_unnumbered {n i : Nat} {st : Search} (h : Filled n (i + 1) st)
    (hi : i < n) : ∃ v < n, st.seq v = none := by
  by_contra hall
  push Not at hall
  -- The numbers would be different ones from `i + 1` up to `n`.
  choose! seq hseq using fun v hv => Option.ne_none_iff_exists'.mp (hall v hv)
  have hmaps : Set.MapsTo seq (Finset.range n) (Finset.Ico (i + 1) n) := by
    intro v hv
    obtain ⟨hle, hlt, -⟩ := h.place v _ (hseq v (Finset.mem_range.mp hv))
    exact Finset.mem_coe.mpr (Finset.mem_Ico.mpr ⟨hle, hlt⟩)
  have hinj : Set.InjOn seq (Finset.range n) := by
    intro v hv w hw heq
    have hv' := h.place v _ (hseq v (Finset.mem_range.mp hv))
    have hw' := h.place w _ (hseq w (Finset.mem_range.mp hw))
    rw [← hv'.2.2, heq, hw'.2.2]
  have hcard := Finset.card_le_card_of_injOn seq hmaps hinj
  rw [Finset.card_range, Nat.card_Ico] at hcard
  omega

theorem Filled.number {i : Nat} {st : Search} (h : Filled cg.num_node (i + 1) st)
    (hi : i < cg.num_node) : ∃ st', numberVertex cg i st = some st' ∧
      Filled cg.num_node i st' ∧ ∀ k ≠ i, st'.vertex_order k = st.vertex_order k := by
  obtain ⟨vx, hfind, hvx, hnone⟩ := findMaximal_spec (h.exists_unnumbered hi)
  rw [numberVertex, hfind, Option.map_some]
  refine ⟨_, rfl, ⟨fun k hik hk => ?_, fun v k hv => ?_⟩, fun k hk => Function.update_of_ne hk _ _⟩
  · dsimp only
    rcases hik.eq_or_lt with rfl | hlt
    · rw [Function.update_self, Function.update_self]
      exact ⟨hvx, rfl⟩
    · obtain ⟨hold, hseq⟩ := h.numbered k hlt hk
      have hne : st.vertex_order k ≠ vx := by
        rintro rfl
        rw [hnone] at hseq
        cases hseq
      rw [Function.update_of_ne hlt.ne', Function.update_of_ne hne]
      exact ⟨hold, hseq⟩
  · dsimp only at hv ⊢
    rcases eq_or_ne v vx with rfl | hne
    · rw [Function.update_self] at hv
      cases hv
      exact ⟨le_rfl, hi, Function.update_self _ _ _⟩
    · rw [Function.update_of_ne hne] at hv
      obtain ⟨hle, hlt, hold⟩ := h.place v k hv
      exact ⟨(Nat.lt_of_succ_le hle).le, hlt, by rw [Function.update_of_ne (by omega), hold]⟩

theorem Filled.run {i : Nat} (hi : i ≤ cg.num_node) {st : Search}
    (h : Filled cg.num_node i st) : ∃ st', numberVertices cg i st = some st' ∧
      Filled cg.num_node 0 st' ∧ ∀ k ≥ i, st'.vertex_order k = st.vertex_order k := by
  induction i generalizing st with
  | zero => exact ⟨st, rfl, h, fun _ _ => rfl⟩
  | succ i ih =>
    obtain ⟨st', hstep, hfilled, hkept⟩ := h.number hi
    obtain ⟨st'', hrun, hdone, hkept'⟩ := ih (Nat.le_of_succ_le hi) hfilled
    refine ⟨st'', by rw [numberVertices, hstep, Option.bind_some, hrun], hdone, fun k hk => ?_⟩
    rw [hkept' k (by omega), hkept k (by omega)]

theorem Filled.isOrder {n : Nat} {st : Search} (h : Filled n 0 st) :
    IsOrder n st.vertex_order := by
  have hmaps : Set.MapsTo st.vertex_order (Set.Iio n) (Set.Iio n) := fun k hk =>
    (h.numbered k (Nat.zero_le k) hk).1
  have hinj : Set.InjOn st.vertex_order (Set.Iio n) := by
    intro k hk l hl heq
    have hk' := (h.numbered k (Nat.zero_le k) hk).2
    rw [heq, (h.numbered l (Nat.zero_le l) hl).2] at hk'
    exact (Option.some.inj hk').symm
  refine ⟨hmaps, hinj, ?_⟩
  rw [← Finset.coe_range] at hmaps hinj ⊢
  exact Finset.surjOn_of_injOn_of_card_le _ hmaps hinj le_rfl

/-- The search returns an order, whose end is the first vertex. -/
theorem numberVertices_spec (cg : ConflictGraph) : ∃ st,
    numberVertices cg cg.num_node .start = some st ∧ IsOrder cg.num_node st.vertex_order ∧
      (0 < cg.num_node → st.vertex_order (cg.num_node - 1) = 0) := by
  have hstart : Filled cg.num_node cg.num_node .start :=
    ⟨fun k hle hlt => absurd hlt (Nat.not_lt.mpr hle), fun v k hv => by cases hv⟩
  obtain ⟨st, hrun, hdone, -⟩ := hstart.run le_rfl
  refine ⟨st, hrun, hdone.isOrder, fun hn => ?_⟩
  -- The first number is the last place, and goes to the first vertex.
  obtain ⟨m, hm⟩ := Nat.exists_eq_succ_of_ne_zero hn.ne'
  rw [hm] at hstart
  obtain ⟨st', hstep, hfilled, -⟩ := (hm ▸ hstart : Filled cg.num_node (m + 1) .start).number
    (by omega)
  obtain ⟨st'', hrun', -, hkept⟩ := hfilled.run (by omega)
  have hst : st = st'' := by
    rw [hm, numberVertices, hstep, Option.bind_some, hrun'] at hrun
    exact (Option.some.inj hrun).symm
  rw [numberVertex, findMaximal_start hn, Option.map_some] at hstep
  rw [hst, hm, Nat.succ_eq_add_one, Nat.add_sub_cancel, hkept m le_rfl, ← Option.some.inj hstep]
  exact Function.update_self _ _ _

end Search

/-! ## The number of colors -/

section Count

variable {sequential_vertex_coloring : ConflictGraph → (Nat → Nat) → Nat × (Nat → Nat)}
  {n : Nat} {H : SimpleGraph (Fin n)} {cg : ConflictGraph} {number : Equiv.Perm (Fin n)}

theorem Presents.adj_iff (h : Presents cg H number) (a b : Fin n) :
    cg.Adj (number a) (number b) ↔ H.Adj a b := by
  rw [h.2]
  constructor
  · rintro ⟨a', b', hadj, ha, hb⟩
    rwa [number.injective (Fin.ext ha), number.injective (Fin.ext hb)]
  · exact fun hadj => ⟨a, b, hadj, rfl, rfl⟩

theorem Presents.lt (h : Presents cg H number) (a : Fin n) : (number a).val < cg.num_node := by
  rw [h.1]
  exact Fin.isLt _

/-- The vertex with a number. -/
theorem Presents.exists_vertex (h : Presents cg H number) {i : Nat} (hi : i < cg.num_node) :
    ∃ a, (number a).val = i :=
  ⟨number.symm ⟨i, h.1 ▸ hi⟩, by rw [Equiv.apply_symm_apply]⟩

/-- Neighbours before a vertex that are adjacent to each other have different colors, so that the
least color left is at most their number. -/
theorem isGreatest_of_previousAdjacent (hpresents : Presents cg H number)
    (hgreedy : ColorsGreedily sequential_vertex_coloring) {order : Nat → Nat}
    (horder : IsOrder cg.num_node order) (hprev : PreviousAdjacent cg order) :
    IsGreatest (cliqueSizes H) (sequential_vertex_coloring cg order).1 := by
  set num_colors := (sequential_vertex_coloring cg order).1
  set color := (sequential_vertex_coloring cg order).2
  have hcount : IsLeast {m | ∀ v < cg.num_node, color v < m} num_colors :=
    hgreedy.count cg order horder
  have hleast := hgreedy.least cg order horder
  have hsymm : ∀ i j, cg.Adj i j → cg.Adj j i := fun _ _ => Or.symm
  constructor
  · rcases num_colors.eq_zero_or_pos with hzero | hpos
    · exact ⟨∅, by simp, hzero.symm⟩
    -- A vertex of the last color, and a neighbour before it of every other color.
    obtain ⟨v, hv, hcolor⟩ : ∃ v < cg.num_node, num_colors ≤ color v + 1 := by
      by_contra hall
      push Not at hall
      have hmem := hcount.2 (show num_colors - 1 ∈ {m | ∀ v < cg.num_node, color v < m} from
        fun v hv => by have := hall v hv; omega)
      omega
    have hlt := hcount.1 v hv
    obtain ⟨k, hk, rfl⟩ := horder.2.2 hv
    have hbelow : ∀ c < color (order k), ∃ j < k, cg.Adj (order j) (order k) ∧
        color (order j) = c := by
      intro c hc
      by_contra hnone
      push Not at hnone
      exact absurd ((hleast k hk).2 hnone) (Nat.not_le.mpr hc)
    choose! place hplace using hbelow
    let chosen : Nat → Nat := fun c => if c < color (order k) then order (place c) else order k
    have hchosen : ∀ c < num_colors, chosen c < cg.num_node ∧ color (chosen c) = c := by
      intro c hc
      by_cases hclt : c < color (order k)
      · obtain ⟨hj, -, hcj⟩ := hplace c hclt
        simp only [chosen, if_pos hclt]
        exact ⟨horder.1 (hj.trans hk), hcj⟩
      · simp only [chosen, if_neg hclt]
        exact ⟨horder.1 hk, by omega⟩
    have hadj : ∀ c < num_colors, ∀ d < num_colors, c < d → cg.Adj (chosen c) (chosen d) := by
      intro c hc d hd hcd
      have hclt : c < color (order k) := by omega
      obtain ⟨hi, hik, hci⟩ := hplace c hclt
      by_cases hdlt : d < color (order k)
      · obtain ⟨hj, hjk, hdj⟩ := hplace d hdlt
        simp only [chosen, if_pos hclt, if_pos hdlt]
        refine hprev k hk _ hi _ hj (fun heq => ?_) hik hjk
        rw [heq, hdj] at hci
        omega
      · simp only [chosen, if_pos hclt, if_neg hdlt]
        exact hik
    obtain ⟨a, -⟩ := hpresents.exists_vertex hv
    have : Nonempty (Fin n) := ⟨a⟩
    choose! vertex hvertex using fun c hc => hpresents.exists_vertex (hchosen c hc).1
    refine ⟨(Finset.range num_colors).image vertex, fun a ha b hb hne => ?_, ?_⟩
    · obtain ⟨c, hc, rfl⟩ := Finset.mem_image.mp (Finset.mem_coe.mp ha)
      obtain ⟨d, hd, rfl⟩ := Finset.mem_image.mp (Finset.mem_coe.mp hb)
      rw [Finset.mem_range] at hc hd
      rw [← hpresents.adj_iff, hvertex c hc, hvertex d hd]
      rcases Nat.lt_trichotomy c d with hcd | rfl | hcd
      · exact hadj c hc d hd hcd
      · exact absurd rfl hne
      · exact hsymm _ _ (hadj d hd c hc hcd)
    · rw [Finset.card_image_of_injOn, Finset.card_range]
      intro c hc d hd heq
      rw [Finset.mem_coe, Finset.mem_range] at hc hd
      have hsame := congrArg (fun a => (number a).val) heq
      simp only [hvertex c hc, hvertex d hd] at hsame
      rw [← (hchosen c hc).2, hsame, (hchosen d hd).2]
  · -- The members of a clique have different colors.
    rintro m ⟨s, hs, rfl⟩
    have hproper : ∀ a b, H.Adj a b → color (number a) ≠ color (number b) := by
      intro a b hab
      obtain ⟨i, hi, hia⟩ := horder.2.2 (hpresents.lt a)
      obtain ⟨j, hj, hjb⟩ := horder.2.2 (hpresents.lt b)
      have hadj : cg.Adj (order i) (order j) := hia ▸ hjb ▸ (hpresents.adj_iff a b).mpr hab
      rw [← hia, ← hjb]
      rcases Nat.lt_trichotomy i j with hij | rfl | hij
      · exact (hleast j hj).1 i hij hadj
      · refine absurd (number.injective (Fin.ext ?_)) hab.ne
        rw [← hia, ← hjb]
      · exact ((hleast i hi).1 j hij (hsymm _ _ hadj)).symm
    have hmaps : Set.MapsTo (fun a => color (number a)) s (Finset.range num_colors) := by
      intro a _
      exact Finset.mem_coe.mpr (Finset.mem_range.mpr (hcount.1 _ (hpresents.lt a)))
    have hinj : Set.InjOn (fun a => color (number a)) s := by
      intro a ha b hb heq
      by_contra hne
      exact hproper a b (hs ha hb hne) heq
    calc s.card ≤ (Finset.range num_colors).card :=
          Finset.card_le_card_of_injOn _ hmaps hinj
      _ = num_colors := Finset.card_range _

/-- Every numbering of a graph has a conflict graph. -/
theorem exists_presents (H : SimpleGraph (Fin n)) (number : Equiv.Perm (Fin n)) :
    ∃ cg, Presents cg H number := by
  classical
  refine ⟨⟨n, (Finset.univ.filter fun e : Fin n × Fin n => H.Adj e.1 e.2).toList.map
    fun e => ((number e.1).val, (number e.2).val)⟩, rfl, fun i j => ?_⟩
  unfold ConflictGraph.Adj
  simp only [List.mem_map, Finset.mem_toList, Finset.mem_filter, Finset.mem_univ, true_and,
    Prod.mk.injEq, Prod.exists]
  constructor
  · rintro (⟨a, b, hab, rfl, rfl⟩ | ⟨a, b, hab, rfl, rfl⟩)
    · exact ⟨a, b, hab, rfl, rfl⟩
    · exact ⟨b, a, hab.symm, rfl, rfl⟩
  · rintro ⟨a, b, hab, rfl, rfl⟩
    exact .inl ⟨a, b, hab, rfl, rfl⟩

/-- The binding is optimal for every numbering of the vertices only where the graph consists of
separate cliques. -/
theorem optimal_iff (hgreedy : ColorsGreedily sequential_vertex_coloring)
    (H : SimpleGraph (Fin n)) :
    (∀ number cg, Presents cg H number → Optimal sequential_vertex_coloring H cg) ↔
      ∀ a b c, H.Adj a b → H.Adj b c → a ≠ c → H.Adj a c := by
  constructor
  · intro hall a b c hab hbc hac
    -- With the number zero the middle vertex is the first to be numbered, and colored last.
    have hn : 0 < n := a.pos
    obtain ⟨cg, hpresents⟩ := exists_presents H (Equiv.swap b ⟨0, hn⟩)
    obtain ⟨binding, hrun, -, hprev⟩ := hall _ cg hpresents
    obtain ⟨st, hst, horder, hlast⟩ := numberVertices_spec cg
    rw [RegisterBinding, hst, Option.map_some] at hrun
    obtain rfl := Option.some.inj hrun
    have hnum : 0 < cg.num_node := hpresents.1.symm ▸ hn
    have hb : st.vertex_order (cg.num_node - 1) = (Equiv.swap b ⟨0, hn⟩ b).val := by
      rw [hlast hnum, Equiv.swap_apply_left]
    have hbefore : ∀ v, H.Adj v b → ∃ i < cg.num_node - 1,
        st.vertex_order i = (Equiv.swap b ⟨0, hn⟩ v).val := by
      intro v hv
      obtain ⟨i, hi, hiv⟩ := horder.2.2 (hpresents.lt v)
      refine ⟨i, lt_of_le_of_ne (Nat.le_pred_of_lt hi) ?_, hiv⟩
      rintro rfl
      exact hv.ne ((Equiv.swap b ⟨0, hn⟩).injective (Fin.ext (hiv.symm.trans hb)))
    obtain ⟨i, hi, hia⟩ := hbefore a hab
    obtain ⟨j, hj, hjc⟩ := hbefore c hbc.symm
    have hadj := hprev (cg.num_node - 1) (by omega) i hi j hj (by
      rintro rfl
      exact hac ((Equiv.swap b ⟨0, hn⟩).injective (Fin.ext (hia.symm.trans hjc))))
    dsimp only at hadj
    rw [hia, hjc, hb, hpresents.adj_iff, hpresents.adj_iff, hpresents.adj_iff] at hadj
    exact hadj hab hbc.symm
  · intro htrans number cg hpresents
    obtain ⟨st, hst, horder, -⟩ := numberVertices_spec cg
    have hprev : PreviousAdjacent cg st.vertex_order := by
      intro k hk i hi j hj hne hik hjk
      obtain ⟨a, ha⟩ := hpresents.exists_vertex (horder.1 (hi.trans hk))
      obtain ⟨b, hb⟩ := hpresents.exists_vertex (horder.1 hk)
      obtain ⟨c, hc⟩ := hpresents.exists_vertex (horder.1 (hj.trans hk))
      rw [← ha, ← hb, hpresents.adj_iff] at hik
      rw [← hc, ← hb, hpresents.adj_iff] at hjk
      rw [← ha, ← hc, hpresents.adj_iff]
      refine htrans a b c hik hjk.symm fun hac => hne ?_
      exact horder.2.1 (hi.trans hk) (hj.trans hk) (by rw [← ha, ← hc, hac])
    refine ⟨_, by rw [RegisterBinding, hst, Option.map_some], ?_, hprev⟩
    exact isGreatest_of_previousAdjacent hpresents hgreedy horder hprev

end Count

/-! ## A path -/

/-- The least color that the neighbours before the vertex of a place leave. -/
def leastFree (G : ConflictGraph) (order color : Nat → Nat) (k : Nat) : Nat :=
  ((List.range (k + 1)).find? fun c => (List.range k).all fun j =>
    !((order j, order k) ∈ G.edges || (order k, order j) ∈ G.edges) || color (order j) != c).getD 0

/-- The colors after so many places. -/
def colorsUpTo (G : ConflictGraph) (order : Nat → Nat) : Nat → Nat → Nat
  | 0 => fun _ => 0
  | k + 1 => Function.update (colorsUpTo G order k) (order k)
      (leastFree G order (colorsUpTo G order k) k)

/-- The greedy coloring along an order. -/
def greedyColoring (G : ConflictGraph) (order : Nat → Nat) : Nat × (Nat → Nat) :=
  let color := colorsUpTo G order G.num_node
  ((List.range G.num_node).foldl (fun m v => max m (color v + 1)) 0, color)

theorem leastFree_isLeast (G : ConflictGraph) (order color : Nat → Nat) (k : Nat) :
    IsLeast {c | ∀ j < k, G.Adj (order j) (order k) → color (order j) ≠ c}
      (leastFree G order color k) := by
  have hfree : ∀ c, ((List.range k).all fun j =>
      !((order j, order k) ∈ G.edges || (order k, order j) ∈ G.edges) || color (order j) != c) =
        true ↔ ∀ j < k, G.Adj (order j) (order k) → color (order j) ≠ c := by
    intro c
    rw [List.all_eq_true]
    refine forall_congr' fun j => ?_
    rw [List.mem_range]
    refine imp_congr_right fun _ => ?_
    unfold ConflictGraph.Adj
    by_cases h1 : (order j, order k) ∈ G.edges <;> by_cases h2 : (order k, order j) ∈ G.edges <;>
      simp [h1, h2]
  -- There are more colors than vertices before this one.
  obtain ⟨c, hc, hcfree⟩ : ∃ c < k + 1, ∀ j < k, G.Adj (order j) (order k) →
      color (order j) ≠ c := by
    by_contra hall
    push Not at hall
    choose! place hplace using hall
    have hmaps : Set.MapsTo place (Finset.range (k + 1)) (Finset.range k) := fun c hc =>
      Finset.mem_coe.mpr (Finset.mem_range.mpr
        (hplace c (Finset.mem_range.mp (Finset.mem_coe.mp hc))).1)
    have hinj : Set.InjOn place (Finset.range (k + 1)) := by
      intro c hc d hd heq
      rw [Finset.mem_coe, Finset.mem_range] at hc hd
      rw [← (hplace c hc).2.2, heq, (hplace d hd).2.2]
    have hcard := Finset.card_le_card_of_injOn place hmaps hinj
    simp at hcard
  unfold leastFree
  cases hfind : (List.range (k + 1)).find? fun c => (List.range k).all fun j =>
      !((order j, order k) ∈ G.edges || (order k, order j) ∈ G.edges) || color (order j) != c with
  | none =>
    exact absurd ((hfree c).mpr hcfree) (List.find?_eq_none.mp hfind c (List.mem_range.mpr hc))
  | some d =>
    rw [Option.getD_some]
    obtain ⟨hd, i, hi, hget, hbelow⟩ := List.find?_eq_some_iff_getElem.mp hfind
    have hdi : i = d := by simpa using hget
    refine ⟨(hfree d).mp hd, fun e he => ?_⟩
    by_contra hlt
    have hno := hbelow e (by omega)
    rw [List.getElem_range, (hfree e).mpr he] at hno
    cases hno

theorem greedyColoring_colorsGreedily : ColorsGreedily greedyColoring where
  least G order horder k hk := by
    -- What has got a color keeps it.
    have hkeep : ∀ m ≤ G.num_node, ∀ j < m,
        colorsUpTo G order m (order j) = leastFree G order (colorsUpTo G order j) j := by
      intro m hm
      induction m with
      | zero => exact fun j hj => absurd hj (Nat.not_lt_zero j)
      | succ m ih =>
        intro j hj
        rcases (Nat.le_of_lt_succ hj).eq_or_lt with rfl | hlt
        · exact Function.update_self _ _ _
        · rw [colorsUpTo, Function.update_of_ne, ih (by omega) j hlt]
          exact fun heq => hlt.ne (horder.2.1 (Set.mem_Iio.mpr (hlt.trans hm))
            (Set.mem_Iio.mpr hm) heq)
    have hleast := leastFree_isLeast G order (colorsUpTo G order k) k
    rw [← hkeep G.num_node le_rfl k hk] at hleast
    have hsame : ∀ j < k, (greedyColoring G order).2 (order j) =
        colorsUpTo G order k (order j) := fun j hj =>
      (hkeep _ le_rfl j (hj.trans hk)).trans (hkeep k hk.le j hj).symm
    convert hleast using 5 with c j hj
    · rw [hsame j hj]
    · rfl
  count G order _ := by
    have hfold : ∀ (l : List Nat) (m b : Nat) (color : Nat → Nat),
        l.foldl (fun m v => max m (color v + 1)) m ≤ b ↔ m ≤ b ∧ ∀ v ∈ l, color v < b := by
      intro l
      induction l with
      | nil => simp
      | cons v l ih =>
        intro m b color
        rw [List.foldl_cons, ih, max_le_iff, List.forall_mem_cons, and_assoc, Nat.succ_le_iff]
    refine ⟨fun v hv => ?_, fun b hb => ?_⟩
    · exact ((hfold _ 0 _ _).mp le_rfl).2 v (List.mem_range.mpr hv)
    · exact (hfold _ 0 _ _).mpr ⟨Nat.zero_le b, fun v hv => hb v (List.mem_range.mp hv)⟩

/-- A path on four vertices with the first number on an inner one: `2 - 0 - 1 - 3`. -/
def pathGraph : ConflictGraph := ⟨4, [(2, 0), (0, 1), (1, 3)]⟩

def path : SimpleGraph (Fin 4) where
  Adj a b := pathGraph.Adj a b
  symm := ⟨fun _ _ => Or.symm⟩
  loopless := ⟨by unfold pathGraph ConflictGraph.Adj; decide⟩

instance : DecidableRel path.Adj := fun _ _ => inferInstanceAs (Decidable (_ ∨ _))

/-- The ends of the path are colored first, and alike, so that it takes three colors. -/
theorem path_not_optimal :
    ColorsGreedily greedyColoring ∧ Chordal path ∧ Presents pathGraph path (Equiv.refl _) ∧
      (RegisterBinding greedyColoring pathGraph).map (fun b => b.num_colors) = some 3 ∧
      3 ∉ cliqueSizes path ∧ ¬ Optimal greedyColoring path pathGraph := by
  have hchordal : Chordal path := by
    intro k cycle hinj hcycle
    have hk : k = 0 := by
      have hcard := Fintype.card_le_of_injective cycle hinj
      simp only [Fintype.card_fin] at hcard
      omega
    subst hk
    revert cycle
    decide +kernel
  have hpresents : Presents pathGraph path (Equiv.refl _) := by
    refine ⟨rfl, fun i j => ⟨fun h => ?_, ?_⟩⟩
    · have hlt : i < 4 ∧ j < 4 := by
        simp only [pathGraph, ConflictGraph.Adj, List.mem_cons, Prod.mk.injEq, List.not_mem_nil,
          or_false] at h
        omega
      exact ⟨⟨i, hlt.1⟩, ⟨j, hlt.2⟩, h, rfl, rfl⟩
    · rintro ⟨a, b, hab, rfl, rfl⟩
      exact hab
  have hcolors : (RegisterBinding greedyColoring pathGraph).map (fun b => b.num_colors) =
      some 3 := by decide +kernel
  have hclique : 3 ∉ cliqueSizes path := by
    rintro ⟨s, hs, hcard⟩
    revert s
    decide +kernel
  refine ⟨greedyColoring_colorsGreedily, hchordal, hpresents, hcolors, hclique, ?_⟩
  rintro ⟨b, hrun, hgreatest, -⟩
  rw [hrun, Option.map_some] at hcolors
  exact hclique (Option.some.inj hcolors ▸ hgreatest.1)

/-- An edge and two single vertices are colored well. -/
theorem optimal_edge :
    Optimal greedyColoring (SimpleGraph.fromEdgeSet {s((0 : Fin 4), 1)}) ⟨4, [(0, 1)]⟩ := by
  have hpresents : Presents ⟨4, [(0, 1)]⟩ (SimpleGraph.fromEdgeSet {s((0 : Fin 4), 1)})
      (Equiv.refl _) := by
    refine ⟨rfl, fun i j => ⟨fun h => ?_, ?_⟩⟩
    · simp only [ConflictGraph.Adj, List.mem_singleton, Prod.mk.injEq] at h
      obtain ⟨rfl, rfl⟩ | ⟨rfl, rfl⟩ := h
      · exact ⟨0, 1, by simp, rfl, rfl⟩
      · exact ⟨1, 0, by simp, rfl, rfl⟩
    · rintro ⟨a, b, hab, rfl, rfl⟩
      simp only [SimpleGraph.fromEdgeSet_adj, Set.mem_singleton_iff, Sym2.eq_iff] at hab
      obtain ⟨⟨rfl, rfl⟩ | ⟨rfl, rfl⟩, -⟩ := hab
      · exact Or.inl List.mem_cons_self
      · exact Or.inr List.mem_cons_self
  refine (optimal_iff greedyColoring_colorsGreedily _).mpr ?_ _ _ hpresents
  intro a b c hab hbc hac
  simp only [SimpleGraph.fromEdgeSet_adj, Set.mem_singleton_iff, Sym2.eq_iff] at hab hbc ⊢
  grind

end ChordalColoringRegister
end HLS
end Bambu
