/-
  Bambu.Algorithms.CliqueCovering.Pruning

  The edges that a level of the weighted clique covering leaves to its representatives.

  Only the removal of an edge of a representative restarts the pruning.  In the last pass there is
  none, so that what still leads from one representative to another one stands for edges between
  all that they represent.
-/

import Bambu.Math.DisjointSets
import Bambu.Algorithms.CliqueCovering.CompatibilityGraph
import Mathlib.Data.Finset.Sort

namespace Bambu
namespace CliqueCovering

open Bambu.Math

section Definitions

/-- The representatives of the support, each with the other vertices that it represents. -/
def build_partitions (support : Finset C_vertex) (ds : DisjointSets C_vertex) :
    List (C_vertex × Finset C_vertex) :=
  ((support.image ds.find_set).sort (· ≤ ·)).map fun rep =>
    (rep, support.filter fun cur => ds.find_set cur = rep ∧ cur ≠ rep)

/-- The edges of the representative to what the vertex is not adjacent to are removed: whether
there was one.  The iterator passes over edges that are off already. -/
def pruneRep (rep cur : C_vertex) (CG : CompatibilityGraph) : CompatibilityGraph × Bool :=
  (CG.out_edges rep).foldl (fun st e =>
    if st.1.selected e = false ∨ e.other rep = cur ∨
        e.other rep ∈ st.1.adjacent_vertices cur then st
    else (st.1.select e 0, true)) (CG, false)

/-- The edges of the vertex to what the representative is not adjacent to are removed. -/
def pruneCur (rep cur : C_vertex) (CG : CompatibilityGraph) : CompatibilityGraph :=
  (CG.out_edges cur).foldl (fun CG e =>
    if CG.selected e = false ∨ e.other cur = rep ∨ e.other cur ∈ CG.adjacent_vertices rep then CG
    else CG.select e 0) CG

/-- The vertices of one partition up to the first restart: whether there was one. -/
def pruneClique (rep : C_vertex) :
    List C_vertex → CompatibilityGraph → CompatibilityGraph × Bool
  | [], CG => (CG, false)
  | cur :: rest, CG =>
    let st := pruneRep rep cur CG
    let CG := pruneCur rep cur st.1
    if st.2 then (CG, true) else pruneClique rep rest CG

/-- One partition, which starts again after each restart. -/
def prunePartition (rep : C_vertex) (current_cliques : List C_vertex) :
    Nat → CompatibilityGraph → Except Error (CompatibilityGraph × Bool)
  | 0, _ => .error .outOfFuel
  | fuel + 1, CG =>
    let st := pruneClique rep current_cliques CG
    if st.2 then (prunePartition rep current_cliques fuel st.1).map fun r => (r.1, true)
    else .ok st

/-- The number of edges that are on. -/
def active (CG : CompatibilityGraph) : Nat := (CG.edges.filter CG.selected).length

/-- One pass over the partitions: whether it was restarted. -/
def prunePass : List (C_vertex × Finset C_vertex) → CompatibilityGraph →
    Except Error (CompatibilityGraph × Bool)
  | [], CG => .ok (CG, false)
  | (rep, current_cliques) :: rest, CG =>
    (prunePartition rep (current_cliques.sort (· ≤ ·)) (active CG + 1) CG).bind fun r =>
      (prunePass rest r.1).map fun r' => (r'.1, r.2 || r'.2)

/-- Passes until there is one without a restart. -/
def prune (current_partitions : List (C_vertex × Finset C_vertex)) :
    Nat → CompatibilityGraph → Except Error CompatibilityGraph
  | 0, _ => .error .outOfFuel
  | fuel + 1, CG => (prunePass current_partitions CG).bind fun r =>
    if r.2 then prune current_partitions fuel r.1 else .ok r.1

end Definitions

/-! ## Fewer edges -/

/-- Edges have been switched off. -/
structure Pruned (CG CG' : CompatibilityGraph) : Prop where
  edges : CG'.edges = CG.edges
  mask : CG'.mask = CG.mask
  support : CG'.support = CG.support
  selector : ∀ i, CG'.selector i = CG.selector i ∨ CG'.selector i = 0

section Pruned

variable {CG CG' CG'' : CompatibilityGraph}

theorem Pruned.refl (CG : CompatibilityGraph) : Pruned CG CG :=
  ⟨rfl, rfl, rfl, fun _ => Or.inl rfl⟩

theorem Pruned.trans (h : Pruned CG CG') (h' : Pruned CG' CG'') : Pruned CG CG'' := by
  refine ⟨h'.edges.trans h.edges, h'.mask.trans h.mask, h'.support.trans h.support, fun i => ?_⟩
  obtain heq | hzero := h'.selector i
  · rw [heq]
    exact h.selector i
  · exact Or.inr hzero

theorem Pruned.select (CG : CompatibilityGraph) (e : Edge) : Pruned CG (CG.select e 0) := by
  refine ⟨rfl, rfl, rfl, fun i => ?_⟩
  simp only [CompatibilityGraph.select]
  by_cases hi : i = e.id
  · exact Or.inr (by rw [hi, Function.update_self])
  · exact Or.inl (Function.update_of_ne hi _ _)

theorem Pruned.selected (h : Pruned CG CG') {e : Edge} (he : CG'.selected e = true) :
    CG.selected e = true := by
  unfold CompatibilityGraph.selected at he ⊢
  obtain heq | hzero := h.selector e.id
  · rwa [heq, h.mask] at he
  · rw [hzero, Nat.and_zero] at he
    cases he

theorem Pruned.adj (h : Pruned CG CG') {x y : C_vertex} (hxy : CG'.Adj x y) : CG.Adj x y := by
  obtain ⟨e, he, hjoins, hsel⟩ := hxy
  exact ⟨e, h.edges ▸ he, hjoins, h.selected hsel⟩

/-- The descriptors tell the edges apart. -/
def Distinct (CG : CompatibilityGraph) : Prop :=
  ∀ e ∈ CG.edges, ∀ e' ∈ CG.edges, e.id = e'.id → e = e'

theorem Pruned.distinct (h : Pruned CG CG') (hid : Distinct CG) : Distinct CG' := by
  unfold Distinct
  rwa [h.edges]

theorem Pruned.active_le (h : Pruned CG CG') : active CG' ≤ active CG := by
  rw [active, active, h.edges]
  exact (List.monotone_filter_right _ fun e he => h.selected he).length_le

/-- An edge is on before and off after. -/
theorem Pruned.active_lt (h : Pruned CG CG') {e : Edge} (he : e ∈ CG.edges)
    (hon : CG.selected e = true) (hoff : CG'.selected e = false) : active CG' < active CG := by
  rw [active, active, h.edges]
  have hsub := List.monotone_filter_right CG.edges (p := CG'.selected) (q := CG.selected)
    fun e he => h.selected he
  refine Nat.lt_of_le_of_ne hsub.length_le fun hlen => ?_
  have hmem : e ∈ CG.edges.filter CG.selected := List.mem_filter.mpr ⟨he, hon⟩
  rw [← hsub.eq_of_length hlen] at hmem
  have hon' := (List.mem_filter.mp hmem).2
  rw [hoff] at hon'
  cases hon'

end Pruned

/-! ## One vertex -/

section Vertex

variable {CG : CompatibilityGraph}

/-- Without a restart nothing is removed, and the vertex is adjacent to what the representative is
adjacent to. -/
theorem pruneRep_spec (rep cur : C_vertex) (CG : CompatibilityGraph) :
    Pruned CG (pruneRep rep cur CG).1 ∧
      ((pruneRep rep cur CG).2 = true → active (pruneRep rep cur CG).1 < active CG) ∧
      ((pruneRep rep cur CG).2 = false → (pruneRep rep cur CG).1 = CG ∧
        ∀ x ∈ CG.support, CG.Adj rep x → x = cur ∨ CG.Adj cur x) := by
  obtain ⟨f, hf⟩ : ∃ f : CompatibilityGraph × Bool → Edge → CompatibilityGraph × Bool,
      f = fun st e => if st.1.selected e = false ∨ e.other rep = cur ∨
        e.other rep ∈ st.1.adjacent_vertices cur then st else (st.1.select e 0, true) := ⟨_, rfl⟩
  have hloop : ∀ (l : List Edge) (st : CompatibilityGraph × Bool), (∀ e ∈ l, e ∈ st.1.edges) →
      Pruned st.1 (l.foldl f st).1 ∧
        ((l.foldl f st).2 = true → st.2 = true ∨ active (l.foldl f st).1 < active st.1) ∧
        ((l.foldl f st).2 = false → l.foldl f st = st ∧ ∀ e ∈ l, st.1.selected e = false ∨
          e.other rep = cur ∨ e.other rep ∈ st.1.adjacent_vertices cur) := by
    intro l
    induction l with
    | nil =>
      exact fun st _ => ⟨Pruned.refl _, Or.inl, fun _ => ⟨rfl, fun e he => absurd he List.not_mem_nil⟩⟩
    | cons e l ih =>
      intro st hl
      have htail : ∀ e' ∈ l, e' ∈ st.1.edges := fun e' he' => hl e' (List.mem_cons_of_mem e he')
      rw [List.foldl_cons]
      by_cases hkeep : st.1.selected e = false ∨ e.other rep = cur ∨
          e.other rep ∈ st.1.adjacent_vertices cur
      · rw [show f st e = st by rw [hf]; exact if_pos hkeep]
        obtain ⟨hpruned, hless, hsame⟩ := ih st htail
        refine ⟨hpruned, hless, fun hfalse => ?_⟩
        obtain ⟨heq, hrest⟩ := hsame hfalse
        refine ⟨heq, fun e' he' => ?_⟩
        obtain rfl | he' := List.mem_cons.mp he'
        · exact hkeep
        · exact hrest e' he'
      · rw [show f st e = (st.1.select e 0, true) by rw [hf]; exact if_neg hkeep]
        obtain ⟨hpruned, -, hsame⟩ := ih (st.1.select e 0, true) htail
        have hstep := Pruned.select st.1 e
        refine ⟨hstep.trans hpruned, fun _ => Or.inr ?_, fun hfalse => ?_⟩
        · rw [not_or, Bool.not_eq_false] at hkeep
          exact (hpruned.active_le).trans_lt (hstep.active_lt (hl e List.mem_cons_self) hkeep.1
            (Bool.eq_false_iff.mpr fun hon =>
              (CompatibilityGraph.selected_select.mp hon).1 rfl))
        · obtain ⟨heq, -⟩ := hsame hfalse
          rw [heq] at hfalse
          cases hfalse
  obtain ⟨hpruned, hless, hsame⟩ := hloop (CG.out_edges rep) (CG, false)
    fun e he => (CompatibilityGraph.mem_out_edges.mp he).1
  rw [hf] at hpruned hless hsame
  refine ⟨hpruned, fun htrue => (hless htrue).resolve_left (by rintro ⟨⟩), fun hfalse => ?_⟩
  obtain ⟨heq, hall⟩ := hsame hfalse
  refine ⟨congrArg Prod.fst heq, fun x hx hadj => ?_⟩
  obtain ⟨e, he, hjoins, hsel⟩ := hadj
  obtain ⟨hincident, rfl⟩ := Edge.joins_iff.mp hjoins
  obtain hoff | hcur | hadj := hall e (CompatibilityGraph.mem_out_edges.mpr ⟨he, ⟨hincident, hx⟩, hsel⟩)
  · rw [show CG.selected e = true from hsel] at hoff
    cases hoff
  · exact Or.inl hcur
  · exact Or.inr (CompatibilityGraph.mem_adjacent_vertices.mp hadj).1

/-- An edge stays that does not belong to the vertex, or whose other end is the representative or
adjacent to it. -/
theorem pruneCur_spec (rep cur : C_vertex) (hid : Distinct CG) :
    Pruned CG (pruneCur rep cur CG) ∧ ∀ e ∈ CG.edges, CG.selected e = true →
      (e.Incident cur → e.other cur = rep ∨ (pruneCur rep cur CG).Adj rep (e.other cur)) →
        (pruneCur rep cur CG).selected e = true := by
  obtain ⟨f, hf⟩ : ∃ f : CompatibilityGraph → Edge → CompatibilityGraph, f = fun CG e =>
      if CG.selected e = false ∨ e.other cur = rep ∨ e.other cur ∈ CG.adjacent_vertices rep then CG
      else CG.select e 0 := ⟨_, rfl⟩
  have hloop : ∀ (l : List Edge) (CG' : CompatibilityGraph), Pruned CG CG' →
      (∀ e ∈ l, e ∈ CG.out_edges cur) → Pruned CG' (l.foldl f CG') ∧
        ∀ e ∈ CG.edges, CG'.selected e = true →
          (e.Incident cur → e.other cur = rep ∨ (l.foldl f CG').Adj rep (e.other cur)) →
            (l.foldl f CG').selected e = true := by
    intro l
    induction l with
    | nil => exact fun CG' _ _ => ⟨Pruned.refl _, fun _ _ hsel _ => hsel⟩
    | cons e l ih =>
      intro CG' hCG' hl
      obtain ⟨he, ⟨hincident, hsupport⟩, -⟩ := CompatibilityGraph.mem_out_edges.mp
        (hl e List.mem_cons_self)
      have hstep : Pruned CG' (f CG' e) := by
        rw [hf]
        simp only
        split
        · exact Pruned.refl _
        · exact Pruned.select _ _
      obtain ⟨hpruned, hrest⟩ := ih (f CG' e) (hCG'.trans hstep)
        fun e' he' => hl e' (List.mem_cons_of_mem e he')
      rw [List.foldl_cons]
      refine ⟨hstep.trans hpruned, fun e' he' hsel hkeep => hrest e' he' ?_ hkeep⟩
      rw [hf]
      simp only
      split
      case isTrue => exact hsel
      case isFalse hremove =>
        by_cases hee : e' = e
        · subst hee
          -- An edge that is to stay is not the one that is removed.
          refine absurd (Or.inr ((hkeep hincident).imp_right fun hadj => ?_)) hremove
          refine CompatibilityGraph.mem_adjacent_vertices.mpr ⟨?_, ?_⟩
          · exact hstep.adj (hpruned.adj hadj)
          · rw [hCG'.support]
            exact hsupport
        · exact CompatibilityGraph.selected_select.mpr
            ⟨fun heq => hee (hid e' he' e he heq), hsel⟩
  have hrun := hloop (CG.out_edges cur) CG (Pruned.refl CG) fun e he => he
  rw [hf] at hrun
  exact hrun

end Vertex

/-! ## The last pass -/

/-- The pairs of a representative and a vertex, in the order of the traversal. -/
def pairs (partitions : List (C_vertex × Finset C_vertex)) : List (C_vertex × C_vertex) :=
  partitions.flatMap fun p => (p.2.sort (· ≤ ·)).map fun cur => (p.1, cur)

/-- A traversal without a restart. -/
inductive Quiet : List (C_vertex × C_vertex) → CompatibilityGraph → CompatibilityGraph → Prop
  | nil (CG : CompatibilityGraph) : Quiet [] CG CG
  | cons {rep cur : C_vertex} {rest : List (C_vertex × C_vertex)} {CG CG' : CompatibilityGraph}
    (hadj : ∀ x ∈ CG.support, CG.Adj rep x → x = cur ∨ CG.Adj cur x)
    (hrest : Quiet rest (pruneCur rep cur CG) CG') : Quiet ((rep, cur) :: rest) CG CG'

section Quiet

variable {L L' : List (C_vertex × C_vertex)} {CG CG' CG'' : CompatibilityGraph}

theorem Quiet.append (h : Quiet L CG CG') (h' : Quiet L' CG' CG'') : Quiet (L ++ L') CG CG'' := by
  induction h with
  | nil => exact h'
  | cons hadj _ ih => exact .cons hadj (ih h')

theorem Quiet.pruned (h : Quiet L CG CG') (hid : Distinct CG) : Pruned CG CG' := by
  induction h with
  | nil => exact Pruned.refl _
  | @cons rep cur _ _ _ _ _ ih =>
    have hstep := (pruneCur_spec rep cur hid).1
    exact hstep.trans (ih (hstep.distinct hid))

/-- A vertex stays adjacent to what its representative stays adjacent to. -/
theorem Quiet.keep (h : Quiet L CG CG') (hid : Distinct CG) {rep cur x : C_vertex}
    (hL : ∀ p ∈ L, p.2 ≠ x ∧ (p.2 = cur → p.1 = rep)) (hadj : CG.Adj cur x)
    (hrep : CG'.Adj rep x) : CG'.Adj cur x := by
  induction h with
  | nil => exact hadj
  | @cons rep' cur' rest CG CG' _ hrest ih =>
    obtain ⟨hstep, hkeep⟩ := pruneCur_spec rep' cur' hid
    refine ih (hstep.distinct hid) (fun p hp => hL p (List.mem_cons_of_mem _ hp)) ?_ hrep
    obtain ⟨e, he, hjoins, hsel⟩ := hadj
    refine ⟨e, hstep.edges ▸ he, hjoins, hkeep e he hsel fun hincident => Or.inr ?_⟩
    obtain ⟨hne, hown⟩ := hL (rep', cur') List.mem_cons_self
    -- Of the two ends only the vertex itself can be the one that is pruned.
    have hcur : cur' = cur := by
      obtain ⟨hsource, htarget⟩ | ⟨hsource, htarget⟩ := hjoins <;> obtain hend | hend := hincident
      · exact hend.symm.trans hsource
      · exact absurd (hend.symm.trans htarget) hne
      · exact absurd (hend.symm.trans hsource) hne
      · exact hend.symm.trans htarget
    obtain rfl := hcur
    obtain rfl := hown rfl
    rw [(Edge.joins_iff.mp hjoins).2]
    exact (hrest.pruned (hstep.distinct hid)).adj hrep

/-- What a vertex is adjacent to, when it stays adjacent to its representative: the vertex of that
representative. -/
theorem Quiet.adj_cur (h : Quiet L CG CG') (hid : Distinct CG) {rep cur x : C_vertex}
    (hmem : (rep, cur) ∈ L) (hL : ∀ p ∈ L, p.2 ≠ x ∧ (p.2 = cur → p.1 = rep))
    (hx : x ∈ CG.support) (hrep : CG'.Adj rep x) : CG'.Adj cur x := by
  induction h with
  | nil => cases hmem
  | @cons rep' cur' rest CG CG' hadj hrest ih =>
    have hstep := (pruneCur_spec rep' cur' hid).1
    have htail : ∀ p ∈ rest, p.2 ≠ x ∧ (p.2 = cur → p.1 = rep) :=
      fun p hp => hL p (List.mem_cons_of_mem _ hp)
    obtain heq | hmem := List.mem_cons.mp hmem
    · cases heq
      have hquiet : Quiet ((rep, cur) :: rest) CG CG' := .cons hadj hrest
      obtain hxc | hcur := hadj x hx ((hquiet.pruned hid).adj hrep)
      · exact absurd hxc.symm (hL (rep, cur) List.mem_cons_self).1
      · exact hquiet.keep hid hL hcur hrep
    · exact ih (hstep.distinct hid) hmem htail (hstep.support ▸ hx) hrep

/-- A vertex has been adjacent to what its representative stays adjacent to. -/
theorem Quiet.adj_before (h : Quiet L CG CG') (hid : Distinct CG) {rep cur x : C_vertex}
    (hmem : (rep, cur) ∈ L) (hx : x ∈ CG.support) (hne : x ≠ cur) (hrep : CG'.Adj rep x) :
    CG.Adj cur x := by
  induction h with
  | nil => cases hmem
  | @cons rep' cur' rest CG CG' hadj hrest ih =>
    have hstep := (pruneCur_spec rep' cur' hid).1
    obtain heq | hmem := List.mem_cons.mp hmem
    · cases heq
      have hquiet : Quiet ((rep, cur) :: rest) CG CG' := .cons hadj hrest
      exact (hadj x hx ((hquiet.pruned hid).adj hrep)).resolve_left hne
    · exact hstep.adj (ih (hstep.distinct hid) hmem (hstep.support ▸ hx) hrep)

/-! ## What the pruning leaves -/

theorem pruneClique_spec (rep : C_vertex) (cl : List C_vertex) (CG : CompatibilityGraph)
    (hid : Distinct CG) : Pruned CG (pruneClique rep cl CG).1 ∧
      ((pruneClique rep cl CG).2 = true → active (pruneClique rep cl CG).1 < active CG) ∧
      ((pruneClique rep cl CG).2 = false →
        Quiet (cl.map fun cur => (rep, cur)) CG (pruneClique rep cl CG).1) := by
  induction cl generalizing CG with
  | nil => exact ⟨Pruned.refl _, fun h => Bool.noConfusion h, fun _ => .nil CG⟩
  | cons cur cl ih =>
    obtain ⟨hfirst, hless, hsame⟩ := pruneRep_spec rep cur CG
    have hsecond := (pruneCur_spec rep cur (hfirst.distinct hid)).1
    have hboth := hfirst.trans hsecond
    rw [pruneClique]
    cases hflag : (pruneRep rep cur CG).2 with
    | true =>
      refine ⟨hboth, fun _ => ?_, fun h => Bool.noConfusion h⟩
      exact hsecond.active_le.trans_lt (hless hflag)
    | false =>
      obtain ⟨hpruned, hless', hquiet⟩ := ih _ (hboth.distinct hid)
      refine ⟨hboth.trans hpruned, fun h => ?_, fun h => ?_⟩
      · exact (hless' h).trans_le hboth.active_le
      · obtain ⟨heq, hadj⟩ := hsame hflag
        refine .cons hadj ?_
        have hrest := hquiet h
        rw [heq] at hrest
        simpa only [heq, Bool.false_eq_true, if_false] using hrest

theorem prunePartition_spec (rep : C_vertex) (cl : List C_vertex) (fuel : Nat)
    (CG : CompatibilityGraph) (hid : Distinct CG) (hfuel : active CG < fuel) :
    ∃ r, prunePartition rep cl fuel CG = .ok r ∧ Pruned CG r.1 ∧
      (r.2 = true → active r.1 < active CG) ∧
      (r.2 = false → Quiet (cl.map fun cur => (rep, cur)) CG r.1) := by
  induction fuel generalizing CG with
  | zero => exact absurd hfuel (Nat.not_lt_zero _)
  | succ fuel ih =>
    obtain ⟨hpruned, hless, hquiet⟩ := pruneClique_spec rep cl CG hid
    rw [prunePartition]
    cases hflag : (pruneClique rep cl CG).2 with
    | false =>
      refine ⟨pruneClique rep cl CG, by simp only [Bool.false_eq_true, if_false], hpruned,
        hless, hquiet⟩
    | true =>
      have hlt := hless hflag
      obtain ⟨r, hrun, hpruned', -, -⟩ := ih (pruneClique rep cl CG).1 (hpruned.distinct hid)
        (by omega)
      refine ⟨(r.1, true), ?_, hpruned.trans hpruned', fun _ => ?_, fun h => Bool.noConfusion h⟩
      · simp only [if_true, hrun]
        rfl
      · exact hpruned'.active_le.trans_lt hlt

theorem prunePass_spec (partitions : List (C_vertex × Finset C_vertex)) (CG : CompatibilityGraph)
    (hid : Distinct CG) : ∃ r, prunePass partitions CG = .ok r ∧ Pruned CG r.1 ∧
      (r.2 = true → active r.1 < active CG) ∧ (r.2 = false → Quiet (pairs partitions) CG r.1) := by
  induction partitions generalizing CG with
  | nil => exact ⟨(CG, false), rfl, Pruned.refl _, fun h => Bool.noConfusion h, fun _ => .nil CG⟩
  | cons p partitions ih =>
    obtain ⟨rep, cl⟩ := p
    obtain ⟨r, hrun, hpruned, hless, hquiet⟩ :=
      prunePartition_spec rep (cl.sort (· ≤ ·)) (active CG + 1) CG hid (Nat.lt_succ_self _)
    obtain ⟨r', hrun', hpruned', hless', hquiet'⟩ := ih r.1 (hpruned.distinct hid)
    refine ⟨(r'.1, r.2 || r'.2), ?_, hpruned.trans hpruned', fun h => ?_, fun h => ?_⟩
    · rw [prunePass, hrun]
      simp only [Except.bind, hrun', Except.map]
    · obtain h | h := Bool.or_eq_true_iff.mp h
      · exact hpruned'.active_le.trans_lt (hless h)
      · exact (hless' h).trans_le hpruned.active_le
    · obtain ⟨h, h'⟩ := Bool.or_eq_false_iff.mp h
      exact (hquiet h).append (hquiet' h')

/-- The pruning ends with a pass without a restart. -/
theorem prune_spec (partitions : List (C_vertex × Finset C_vertex)) (fuel : Nat)
    (CG : CompatibilityGraph) (hid : Distinct CG) (hfuel : active CG < fuel) :
    ∃ CG' CG'', prune partitions fuel CG = .ok CG'' ∧ Pruned CG CG' ∧
      Quiet (pairs partitions) CG' CG'' := by
  induction fuel generalizing CG with
  | zero => exact absurd hfuel (Nat.not_lt_zero _)
  | succ fuel ih =>
    obtain ⟨r, hrun, hpruned, hless, hquiet⟩ := prunePass_spec partitions CG hid
    rw [prune, hrun]
    cases hflag : r.2 with
    | false =>
      refine ⟨CG, r.1, ?_, Pruned.refl _, hquiet hflag⟩
      simp only [Except.bind, hflag, Bool.false_eq_true, if_false]
    | true =>
      have hlt := hless hflag
      obtain ⟨CG', CG'', hrun', hpruned', hquiet'⟩ := ih r.1 (hpruned.distinct hid) (by omega)
      refine ⟨CG', CG'', ?_, hpruned.trans hpruned', hquiet'⟩
      simp only [Except.bind, hflag, if_true, hrun']

end Quiet

section Representatives

variable {CG CG' : CompatibilityGraph} {support : Finset C_vertex} {ds : DisjointSets C_vertex}

theorem mem_pairs {rep cur : C_vertex} : (rep, cur) ∈ pairs (build_partitions support ds) ↔
    cur ∈ support ∧ ds.find_set cur = rep ∧ cur ≠ rep := by
  rw [pairs, build_partitions, List.mem_flatMap]
  constructor
  · rintro ⟨p, hp, hcur⟩
    obtain ⟨rep', -, rfl⟩ := List.mem_map.mp hp
    obtain ⟨cur', hcur', heq⟩ := List.mem_map.mp hcur
    cases heq
    exact Finset.mem_filter.mp ((Finset.mem_sort _).mp hcur')
  · rintro ⟨hcur, rfl, hne⟩
    refine ⟨_, List.mem_map.mpr ⟨ds.find_set cur, ?_, rfl⟩, List.mem_map.mpr ⟨cur, ?_, rfl⟩⟩
    · exact (Finset.mem_sort _).mpr (Finset.mem_image_of_mem _ hcur)
    · exact (Finset.mem_sort _).mpr (Finset.mem_filter.mpr ⟨hcur, rfl, hne⟩)

/-- An edge that is left between two representatives stands for edges between all that they
represent. -/
theorem Quiet.represents (h : Quiet (pairs (build_partitions CG.support ds)) CG CG')
    (hid : Distinct CG) (hflat : ds.Flat) (hmem : ∀ s ∈ CG.support, ds.find_set s ∈ CG.support)
    {a b : C_vertex} (ha : a ∈ CG.support) (hb : b ∈ CG.support) (hab : ¬ ds.Same a b)
    (hadj : CG'.Adj (ds.find_set a) (ds.find_set b)) : CG.Adj a b := by
  have hpairs : ∀ {rep cur x}, ds.find_set x = x → ds.find_set cur = rep →
      ∀ p ∈ pairs (build_partitions CG.support ds), p.2 ≠ x ∧ (p.2 = cur → p.1 = rep) := by
    rintro rep cur x hx hcur ⟨rep', cur'⟩ hp
    obtain ⟨-, hrep', hne⟩ := mem_pairs.mp hp
    refine ⟨?_, ?_⟩
    · rintro rfl
      exact hne (hx.symm.trans hrep')
    · rintro rfl
      exact hrep'.symm.trans hcur
  have hpruned := h.pruned hid
  -- What represents the one is adjacent to the other.
  have hright : CG'.Adj (ds.find_set a) b := by
    by_cases hbrep : b = ds.find_set b
    · rwa [← hbrep] at hadj
    · exact (h.adj_cur hid (mem_pairs.mpr ⟨hb, rfl, hbrep⟩) (hpairs (hflat a) rfl)
        (hmem a ha) hadj.symm).symm
  by_cases harep : a = ds.find_set a
  · rw [← harep] at hright
    exact hpruned.adj hright
  · refine h.adj_before hid (mem_pairs.mpr ⟨ha, rfl, harep⟩) hb ?_ hright
    rintro rfl
    exact hab rfl

end Representatives

end CliqueCovering
end Bambu
