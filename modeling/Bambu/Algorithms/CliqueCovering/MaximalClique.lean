/-
  Bambu.Algorithms.CliqueCovering.MaximalClique

  `TTT_maximal_weighted_clique` and its fast version: the search for a maximal clique of the
  filtered compatibility graph.

  The two classes differ in what ends the search early.
-/

import Bambu.Algorithms.CliqueCovering.CompatibilityGraph
import Mathlib.Algebra.Order.BigOperators.Group.List
import Mathlib.Data.Finset.Card

namespace Bambu
namespace CliqueCovering

/-- The first element of the largest weight, which starts below zero. -/
def firstLargest (weight : C_vertex → Int) (l : List C_vertex) : Option C_vertex :=
  (l.foldl (fun (best : Int × Option C_vertex) v =>
    if weight v > best.1 then (weight v, some v) else best) (-1, none)).2

namespace MaximalClique

/-- The members of the class. -/
structure Search where
  Q : Finset C_vertex
  Q_max : Finset C_vertex
  W_Q : Int
  W_Q_max : Int

section Expand

variable (CG : CompatibilityGraph) (order : Finset C_vertex → List C_vertex)

/-- The weight of the edges from a vertex into a set. -/
def weightInto (v : C_vertex) (s : Finset C_vertex) : Int :=
  (((CG.out_edges v).filter fun e => e.other v ∈ s).map fun e => (e.weight : Int)).sum

def get_max_weighted_adiacent_intersection (subg cand : Finset C_vertex) :
    Except Error C_vertex :=
  match firstLargest (fun v => weightInto CG v cand) (order subg) with
  | none => .error (.assertion "at least one element should belong to subg")
  | some result => .ok result

def get_max_weight_vertex (ext : Finset C_vertex) : Except Error C_vertex :=
  match firstLargest (fun v => ((CG.out_edges v).map fun e => (e.weight : Int)).sum)
    (order ext) with
  | none => .error (.assertion "at least one element should belong to ext")
  | some result => .ok result

def neighbours (v : C_vertex) (s : Finset C_vertex) : Finset C_vertex :=
  s.filter fun w => w ∈ CG.adjacent_vertices v

/-- The loop over `EXT_u`, until the weight that has been found is enough. -/
def extend (enough : Int → Bool)
    (expand : Finset C_vertex → Finset C_vertex → Search → Except Error Search)
    (subg : Finset C_vertex) :
    Nat → Finset C_vertex → Finset C_vertex → Search → Except Error Search
  | 0, EXT_u, _, st => if EXT_u = ∅ then .ok st else .error .outOfFuel
  | fuel + 1, EXT_u, cand, st =>
    if EXT_u = ∅ then .ok st
    else (get_max_weight_vertex CG order EXT_u).bind fun q =>
      let Q := insert q st.Q
      (expand (neighbours CG q subg) (neighbours CG q cand)
        { st with Q := Q, W_Q := st.W_Q + weightInto CG q Q }).bind fun st' =>
          if enough st'.W_Q_max then .ok st'
          else extend enough expand subg fuel (EXT_u.erase q) (cand.erase q)
            { st' with Q := st'.Q.erase q, W_Q := st.W_Q }

/-- The recursive procedure, with a bound on its depth.  It returns early once the weight that has
been found is enough. -/
def expand (enough : Int → Bool) :
    Nat → Finset C_vertex → Finset C_vertex → Search → Except Error Search
  | 0, _, _, _ => .error .outOfFuel
  | fuel + 1, subg, cand, st =>
    if subg = ∅ ∧ st.Q.card ≥ st.Q_max.card then
      if st.Q.card > st.Q_max.card ∨ st.W_Q > st.W_Q_max then
        .ok { st with Q_max := st.Q, W_Q_max := st.W_Q }
      else .ok st
    else if cand = ∅ then .ok st
    else (get_max_weighted_adiacent_intersection CG order subg cand).bind fun u =>
      let EXT_u := cand \ neighbours CG u cand
      extend CG order enough (expand enough fuel) subg EXT_u.card EXT_u cand st

/-- `get_weighted_maximal_cliques`, with the members that it leaves. -/
def get_weighted_maximal_cliques (enough : Int → Bool) : Except Error Search :=
  expand CG order enough (CG.support.card + 1) CG.support CG.support
    { Q := ∅, Q_max := ∅, W_Q := 0, W_Q_max := -2 ^ 31 }

/-- `TTT_maximal_weighted_clique_fast`: the first clique is enough. -/
def TTT_maximal_weighted_clique_fast : Except Error Search :=
  get_weighted_maximal_cliques CG order fun W_Q_max => W_Q_max ≥ 0

/-- `TTT_maximal_weighted_clique`: a clique of the weight of the bound is enough. -/
def TTT_maximal_weighted_clique (upper_bound : Int) : Except Error Search :=
  get_weighted_maximal_cliques CG order fun W_Q_max => upper_bound ≤ W_Q_max

end Expand

end MaximalClique

/-! ## The choice of a vertex -/

theorem firstLargest_mem {weight : C_vertex → Int} {l : List C_vertex} {v : C_vertex}
    (h : firstLargest weight l = some v) : v ∈ l := by
  have hloop : ∀ (l : List C_vertex) (best : Int × Option C_vertex),
      (l.foldl (fun (best : Int × Option C_vertex) v =>
        if weight v > best.1 then (weight v, some v) else best) best).2 = some v →
        best.2 = some v ∨ v ∈ l := by
    intro l
    induction l with
    | nil => exact fun best h => Or.inl h
    | cons w l ih =>
      intro best h
      rw [List.foldl_cons] at h
      split at h
      · obtain hw | hv := ih _ h
        · cases hw
          exact Or.inr List.mem_cons_self
        · exact Or.inr (List.mem_cons_of_mem w hv)
      · exact (ih _ h).imp_right (List.mem_cons_of_mem w)
  obtain hnone | hv := hloop l _ h
  · cases hnone
  · exact hv

/-- With weights from zero on, a vertex is found. -/
theorem firstLargest_isSome {weight : C_vertex → Int} (hweight : ∀ v, 0 ≤ weight v)
    {l : List C_vertex} (hl : l ≠ []) : ∃ v, firstLargest weight l = some v := by
  have hloop : ∀ (l : List C_vertex) (best : Int × Option C_vertex), best.2.isSome →
      ∃ v, (l.foldl (fun (best : Int × Option C_vertex) v =>
        if weight v > best.1 then (weight v, some v) else best) best).2 = some v := by
    intro l
    induction l with
    | nil => exact fun best h => Option.isSome_iff_exists.mp h
    | cons w l ih =>
      intro best h
      rw [List.foldl_cons]
      split
      · exact ih _ rfl
      · exact ih _ h
  cases l with
  | nil => exact absurd rfl hl
  | cons w l =>
    have hw : weight w > -1 := by have := hweight w; omega
    unfold firstLargest
    rw [List.foldl_cons, if_pos hw]
    exact hloop l _ rfl

namespace MaximalClique

open CompatibilityGraph

variable {CG : CompatibilityGraph} {order : Finset C_vertex → List C_vertex}

theorem get_max_weighted_adiacent_intersection_spec (CG : CompatibilityGraph)
    (horder : ∀ s v, v ∈ order s ↔ v ∈ s)
    {subg : Finset C_vertex} (hsubg : subg ≠ ∅) (cand : Finset C_vertex) :
    ∃ u ∈ subg, get_max_weighted_adiacent_intersection CG order subg cand = .ok u := by
  obtain ⟨v, hv⟩ := Finset.nonempty_iff_ne_empty.mpr hsubg
  have hweight : ∀ v, 0 ≤ weightInto CG v cand := by
    intro v
    refine List.sum_nonneg fun w hw => ?_
    obtain ⟨e, -, rfl⟩ := List.mem_map.mp hw
    exact Int.natCast_nonneg _
  obtain ⟨u, hu⟩ := firstLargest_isSome hweight (List.ne_nil_of_mem ((horder subg v).mpr hv))
  exact ⟨u, (horder subg u).mp (firstLargest_mem hu),
    by rw [get_max_weighted_adiacent_intersection, hu]⟩

theorem get_max_weight_vertex_spec (CG : CompatibilityGraph)
    (horder : ∀ s v, v ∈ order s ↔ v ∈ s)
    {ext : Finset C_vertex} (hext : ext ≠ ∅) :
    ∃ q ∈ ext, get_max_weight_vertex CG order ext = .ok q := by
  obtain ⟨v, hv⟩ := Finset.nonempty_iff_ne_empty.mpr hext
  have hweight : ∀ v, 0 ≤ ((CG.out_edges v).map fun e => (e.weight : Int)).sum := by
    intro v
    refine List.sum_nonneg fun w hw => ?_
    obtain ⟨e, -, rfl⟩ := List.mem_map.mp hw
    exact Int.natCast_nonneg _
  obtain ⟨q, hq⟩ := firstLargest_isSome hweight (List.ne_nil_of_mem ((horder ext v).mpr hv))
  exact ⟨q, (horder ext q).mp (firstLargest_mem hq), by rw [get_max_weight_vertex, hq]⟩

theorem mem_neighbours {v w : C_vertex} {s : Finset C_vertex} (hs : s ⊆ CG.support) :
    w ∈ neighbours CG v s ↔ w ∈ s ∧ CG.Adj v w := by
  rw [neighbours, Finset.mem_filter, mem_adjacent_vertices]
  constructor
  · exact fun h => ⟨h.1, h.2.1⟩
  · exact fun h => ⟨h.1, h.2, hs h.1⟩

/-- No vertex is one of its neighbours. -/
theorem neighbours_ssubset (hloop : CG.Loopless) {q : C_vertex} {s : Finset C_vertex}
    (hq : q ∈ s) : neighbours CG q s ⊂ s := by
  refine Finset.filter_ssubset.mpr ⟨q, hq, fun hmem => ?_⟩
  exact ((mem_adjacent_vertices.mp hmem).1).ne hloop rfl

/-! ## The recursion -/

/-- What the recursion starts from: `subg` are the vertices that are adjacent to all of `Q`. -/
structure Pre (CG : CompatibilityGraph) (subg cand : Finset C_vertex) (st : Search) : Prop where
  cand_subset : cand ⊆ subg
  subg_subset : subg ⊆ CG.support
  Q_subset : st.Q ⊆ CG.support
  clique : CG.Clique st.Q
  adjacent : ∀ v ∈ subg, ∀ w ∈ st.Q, CG.Adj w v
  max_subset : st.Q_max ⊆ CG.support
  max_clique : CG.Clique st.Q_max

/-- What it leaves: `Q` is as before unless the weight is enough. -/
structure Post (CG : CompatibilityGraph) (enough : Int → Bool) (st st' : Search) : Prop where
  max_subset : st'.Q_max ⊆ CG.support
  max_clique : CG.Clique st'.Q_max
  restored : enough st'.W_Q_max = true ∨ st'.Q = st.Q
  kept : st.Q_max ≠ ∅ → st'.Q_max ≠ ∅

theorem Pre.post {enough : Int → Bool} {subg cand : Finset C_vertex} {st : Search}
    (h : Pre CG subg cand st) : Post CG enough st st :=
  ⟨h.max_subset, h.max_clique, Or.inr rfl, id⟩

/-- The recursion is entered with one more vertex in `Q`. -/
theorem Pre.descend {subg cand : Finset C_vertex} {st : Search} (h : Pre CG subg cand st)
    {q : C_vertex} (hq : q ∈ cand) (W_Q : Int) :
    Pre CG (neighbours CG q subg) (neighbours CG q cand)
      { st with Q := insert q st.Q, W_Q := W_Q } := by
  have hqs := h.cand_subset hq
  refine ⟨fun v hv => ?_, fun v hv => ?_, fun v hv => ?_, ?_, fun v hv w hw => ?_, h.max_subset,
    h.max_clique⟩
  · rw [mem_neighbours (h.cand_subset.trans h.subg_subset)] at hv
    exact (mem_neighbours h.subg_subset).mpr ⟨h.cand_subset hv.1, hv.2⟩
  · exact h.subg_subset ((mem_neighbours h.subg_subset).mp hv).1
  · obtain rfl | hv := Finset.mem_insert.mp hv
    · exact h.subg_subset hqs
    · exact h.Q_subset hv
  · exact h.clique.insert (h.adjacent q hqs)
  · rw [mem_neighbours h.subg_subset] at hv
    obtain rfl | hw := Finset.mem_insert.mp hw
    · exact hv.2
    · exact h.adjacent v hv.1 w hw

theorem extend_spec (hloop : CG.Loopless) (horder : ∀ s v, v ∈ order s ↔ v ∈ s)
    {enough : Int → Bool}
    {expand : Finset C_vertex → Finset C_vertex → Search → Except Error Search}
    {subg : Finset C_vertex} {bound : Nat}
    (hexpand : ∀ subg cand st, cand.card < bound → Pre CG subg cand st →
      ∃ st', expand subg cand st = .ok st' ∧ Post CG enough st st' ∧
        (subg = cand → st.Q ≠ ∅ → st'.Q_max ≠ ∅)) :
    ∀ fuel EXT_u cand st, EXT_u.card ≤ fuel → EXT_u ⊆ cand → cand.card ≤ bound →
      Pre CG subg cand st → ∃ st', extend CG order enough expand subg fuel EXT_u cand st = .ok st' ∧
        Post CG enough st st' ∧ (subg = cand → EXT_u ≠ ∅ → st'.Q_max ≠ ∅) := by
  intro fuel
  induction fuel with
  | zero =>
    intro EXT_u cand st hfuel hsub hbound hpre
    have hempty : EXT_u = ∅ := Finset.card_eq_zero.mp (Nat.le_zero.mp hfuel)
    refine ⟨st, ?_, hpre.post, fun _ hne => absurd hempty hne⟩
    rw [extend, if_pos hempty]
  | succ fuel ih =>
    intro EXT_u cand st hfuel hsub hbound hpre
    rw [extend]
    by_cases hempty : EXT_u = ∅
    · exact ⟨st, if_pos hempty, hpre.post, fun _ hne => absurd hempty hne⟩
    rw [if_neg hempty]
    obtain ⟨q, hq, hchoice⟩ := get_max_weight_vertex_spec CG horder hempty
    rw [hchoice]
    have hcand : (neighbours CG q cand).card < bound :=
      (Finset.card_lt_card (neighbours_ssubset hloop (hsub hq))).trans_le hbound
    obtain ⟨st', hrun, hpost, hfound⟩ := hexpand _ _ _ hcand
      (hpre.descend (hsub hq) (st.W_Q + weightInto CG q (insert q st.Q)))
    simp only [Except.bind, hrun]
    have hfirst : subg = cand → st'.Q_max ≠ ∅ := fun heq =>
      hfound (by rw [heq]) (Finset.insert_ne_empty q st.Q)
    by_cases henough : enough st'.W_Q_max = true
    · rw [if_pos henough]
      exact ⟨st', rfl, ⟨hpost.max_subset, hpost.max_clique, Or.inl henough, hpost.kept⟩,
        fun heq _ => hfirst heq⟩
    · rw [if_neg henough]
      have hQ : st'.Q.erase q = st.Q := by
        obtain hen | hQ := hpost.restored
        · exact absurd hen henough
        · rw [hQ]
          refine Finset.erase_insert fun hmem => ?_
          exact (hpre.adjacent q (hpre.cand_subset (hsub hq)) q hmem).ne hloop rfl
      have hpre' : Pre CG subg (cand.erase q) { st' with Q := st'.Q.erase q, W_Q := st.W_Q } := by
        refine ⟨(Finset.erase_subset _ _).trans hpre.cand_subset, hpre.subg_subset, ?_, ?_, ?_,
          hpost.max_subset, hpost.max_clique⟩
        · exact hQ ▸ hpre.Q_subset
        · exact hQ ▸ hpre.clique
        · exact hQ ▸ hpre.adjacent
      obtain ⟨st'', hrun', hpost', -⟩ := ih (EXT_u.erase q) (cand.erase q)
        { st' with Q := st'.Q.erase q, W_Q := st.W_Q }
        (by rw [Finset.card_erase_of_mem hq]; omega) (Finset.erase_subset_erase q hsub)
        ((Finset.card_le_card (Finset.erase_subset _ _)).trans hbound) hpre'
      refine ⟨st'', hrun', ⟨hpost'.max_subset, hpost'.max_clique,
        hpost'.restored.imp_right fun heq => heq.trans hQ, fun hne => hpost'.kept (hpost.kept hne)⟩,
        fun heq _ => hpost'.kept (hfirst heq)⟩

theorem expand_spec (hloop : CG.Loopless) (horder : ∀ s v, v ∈ order s ↔ v ∈ s)
    {enough : Int → Bool} (fuel : Nat) : ∀ subg cand st, cand.card < fuel → Pre CG subg cand st →
      ∃ st', expand CG order enough fuel subg cand st = .ok st' ∧ Post CG enough st st' ∧
        (subg = cand → (st.Q ≠ ∅ ∨ subg ≠ ∅) → st'.Q_max ≠ ∅) := by
  induction fuel with
  | zero => exact fun _ cand _ h => absurd h (Nat.not_lt_zero _)
  | succ fuel ih =>
    intro subg cand st hfuel hpre
    rw [expand]
    by_cases hdone : subg = ∅ ∧ st.Q.card ≥ st.Q_max.card
    · rw [if_pos hdone]
      split
      case isTrue =>
        refine ⟨_, rfl, ⟨hpre.Q_subset, hpre.clique, Or.inr rfl, fun hne hempty => hne ?_⟩,
          fun _ hne hempty => ?_⟩
        · exact Finset.card_eq_zero.mp (Nat.le_zero.mp (by
            have := hdone.2
            rwa [show st.Q = ∅ from hempty] at this))
        · obtain hne | hne := hne
          · exact hne hempty
          · exact hne hdone.1
      case isFalse hsmall =>
        refine ⟨st, rfl, hpre.post, fun _ hne hempty => ?_⟩
        obtain hne | hne := hne
        · refine hsmall (Or.inl ?_)
          rw [hempty, Finset.card_empty]
          exact Finset.card_pos.mpr (Finset.nonempty_iff_ne_empty.mpr hne)
        · exact hne hdone.1
    rw [if_neg hdone]
    by_cases hcand : cand = ∅
    · rw [if_pos hcand]
      refine ⟨st, rfl, hpre.post, fun heq hne hempty => hdone ⟨heq.trans hcand, ?_⟩⟩
      rw [hempty]
      exact Nat.zero_le _
    rw [if_neg hcand]
    have hsubg : subg ≠ ∅ := by
      rintro rfl
      exact hcand (Finset.subset_empty.mp hpre.cand_subset)
    obtain ⟨u, hu, hchoice⟩ :=
      get_max_weighted_adiacent_intersection_spec CG horder hsubg cand
    simp only [hchoice, Except.bind]
    obtain ⟨st', hrun, hpost, hfound⟩ := extend_spec hloop horder
      (fun subg cand st hcard hpre => by
        obtain ⟨st', hrun, hpost, hfound⟩ := ih subg cand st hcard hpre
        exact ⟨st', hrun, hpost, fun heq hne => hfound heq (Or.inl hne)⟩)
      (cand \ neighbours CG u cand).card _ cand st (Nat.le_refl _) Finset.sdiff_subset
      (Nat.le_of_lt_succ hfuel) hpre
    refine ⟨st', hrun, hpost, fun heq _ => hfound heq ?_⟩
    -- The vertex itself is not one of its neighbours.
    subst heq
    refine Finset.ne_empty_of_mem (Finset.mem_sdiff.mpr ⟨hu, fun hmem => ?_⟩)
    exact (((mem_neighbours hpre.subg_subset).mp hmem).2).ne hloop rfl

/-- A clique is found, and one that is not empty when there are vertices. -/
theorem get_weighted_maximal_cliques_spec (hloop : CG.Loopless)
    (horder : ∀ s v, v ∈ order s ↔ v ∈ s) (enough : Int → Bool) (hsupport : CG.support ≠ ∅) :
    ∃ st, get_weighted_maximal_cliques CG order enough = .ok st ∧ st.Q_max ⊆ CG.support ∧
      CG.Clique st.Q_max ∧ st.Q_max ≠ ∅ := by
  have hempty : CG.Clique ∅ := fun u hu => absurd hu (Finset.notMem_empty u)
  have hpre : Pre CG CG.support CG.support { Q := ∅, Q_max := ∅, W_Q := 0, W_Q_max := -2 ^ 31 } :=
    { cand_subset := Finset.Subset.refl _
      subg_subset := Finset.Subset.refl _
      Q_subset := Finset.empty_subset _
      clique := hempty
      adjacent := fun _ _ w hw => absurd hw (Finset.notMem_empty w)
      max_subset := Finset.empty_subset _
      max_clique := hempty }
  obtain ⟨st, hrun, hpost, hfound⟩ :=
    expand_spec hloop horder _ _ _ _ (Nat.lt_succ_self _) hpre
  exact ⟨st, hrun, hpost.max_subset, hpost.max_clique, hfound rfl (Or.inr hsupport)⟩

end MaximalClique
end CliqueCovering
end Bambu
