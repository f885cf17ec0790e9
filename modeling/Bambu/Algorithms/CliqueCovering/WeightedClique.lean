/-
  Bambu.Algorithms.CliqueCovering.WeightedClique

  The search of `TTT_maximal_weighted_clique` is exact: it goes through all maximal cliques, unless
  the bound ends it early.

  A maximal clique that contains `Q` and is otherwise made of candidates has a member that is not
  adjacent to the pivot; the first such member that the loop takes leads to it.
-/

import Bambu.Algorithms.CliqueCovering.MaximalClique
import Mathlib.Data.Finset.Sort

namespace Bambu
namespace CliqueCovering
namespace MaximalClique

open CompatibilityGraph

/-! ## The calls of the recursion -/

/-- The arguments of a call of `expand`, with the members of the class. -/
structure Call where
  fuel : Nat
  subg : Finset C_vertex
  cand : Finset C_vertex
  st : Search

section Calls

variable (CG : CompatibilityGraph) (order : Finset C_vertex → List C_vertex) (enough : Int → Bool)

/-- The calls that `extend` makes. -/
def extendCalls (expand : Finset C_vertex → Finset C_vertex → Search → Except Error Search)
    (expandCalls : Finset C_vertex → Finset C_vertex → Search → List Call)
    (subg : Finset C_vertex) :
    Nat → Finset C_vertex → Finset C_vertex → Search → List Call
  | 0, _, _, _ => []
  | fuel + 1, EXT_u, cand, st =>
    if EXT_u = ∅ then []
    else
      match get_max_weight_vertex CG order EXT_u with
      | .error _ => []
      | .ok q =>
        let Q := insert q st.Q
        let st_q := { st with Q := Q, W_Q := st.W_Q + weightInto CG q Q }
        expandCalls (neighbours CG q subg) (neighbours CG q cand) st_q ++
          match expand (neighbours CG q subg) (neighbours CG q cand) st_q with
          | .error _ => []
          | .ok st' =>
            if enough st'.W_Q_max then []
            else extendCalls expand expandCalls subg fuel (EXT_u.erase q) (cand.erase q)
              { st' with Q := st'.Q.erase q, W_Q := st.W_Q }

/-- The call itself, and those that `expand` makes. -/
def expandCalls : Nat → Finset C_vertex → Finset C_vertex → Search → List Call
  | 0, _, _, _ => []
  | fuel + 1, subg, cand, st =>
    ⟨fuel + 1, subg, cand, st⟩ ::
      if subg = ∅ ∧ st.Q.card ≥ st.Q_max.card ∨ cand = ∅ then []
      else
        match get_max_weighted_adiacent_intersection CG order subg cand with
        | .error _ => []
        | .ok u =>
          let EXT_u := cand \ neighbours CG u cand
          extendCalls CG order enough (expand CG order enough fuel) (expandCalls fuel) subg
            EXT_u.card EXT_u cand st

/-- What the search starts with. -/
def initial : Search := { Q := ∅, Q_max := ∅, W_Q := 0, W_Q_max := -2 ^ 31 }

/-- All calls of `get_weighted_maximal_cliques`. -/
def allCalls : List Call :=
  expandCalls CG order enough (CG.support.card + 1) CG.support CG.support initial

end Calls

/-! ## Cliques and their weights -/

section Weight

/-- The weight of the edges between members of a set. -/
def weight (CG : CompatibilityGraph) (Q : Finset C_vertex) : Int :=
  (CG.edges.map fun e =>
    if (e.source ∈ Q ∧ e.target ∈ Q) ∧ CG.selected e = true then (e.weight : Int) else 0).sum

/-- A clique that no vertex can be added to. -/
structure IsMaximal (CG : CompatibilityGraph) (Q : Finset C_vertex) : Prop where
  subset : Q ⊆ CG.support
  clique : CG.Clique Q
  maximal : ∀ v ∈ CG.support, CG.Clique (insert v Q) → v ∈ Q

variable {CG : CompatibilityGraph} {order : Finset C_vertex → List C_vertex} {enough : Int → Bool}
  {Q : Finset C_vertex} {q : C_vertex}

theorem weight_nonneg (CG : CompatibilityGraph) (Q : Finset C_vertex) : 0 ≤ weight CG Q := by
  refine List.sum_nonneg fun w hw => ?_
  obtain ⟨e, -, rfl⟩ := List.mem_map.mp hw
  split_ifs
  · exact Int.natCast_nonneg _
  · exact le_rfl

theorem weightInto_eq (CG : CompatibilityGraph) (v : C_vertex) (s : Finset C_vertex) :
    weightInto CG v s = (CG.edges.map fun e =>
      if ((e.Incident v ∧ e.other v ∈ CG.support) ∧ CG.selected e = true) ∧ e.other v ∈ s then
        (e.weight : Int) else 0).sum := by
  unfold weightInto out_edges
  rw [List.filter_filter]
  induction CG.edges with
  | nil => rfl
  | cons e l ih =>
    by_cases h : ((e.Incident v ∧ e.other v ∈ CG.support) ∧ CG.selected e = true) ∧ e.other v ∈ s
    · rw [List.filter_cons_of_pos (by simp [h]), List.map_cons, List.map_cons, List.sum_cons,
        List.sum_cons, ih, if_pos h]
    · rw [List.filter_cons_of_neg (by simpa [and_comm, and_assoc] using h), List.map_cons,
        List.sum_cons, ih, if_neg h, zero_add]

/-- A new member adds the weight of its edges to the others. -/
theorem weight_insert (hloop : CG.Loopless) (hQ : Q ⊆ CG.support) (hq : q ∉ Q) :
    weight CG (insert q Q) = weight CG Q + weightInto CG q (insert q Q) := by
  rw [weightInto_eq, weight, weight, ← List.sum_map_add]
  refine congrArg List.sum (List.map_congr_left fun e he => ?_)
  have hne := hloop e he
  unfold Edge.Incident Edge.other
  by_cases hsel : CG.selected e = true
  · by_cases hs : e.source = q
    · have ht : e.target ≠ q := fun h => hne (hs.trans h.symm)
      have hsupport : e.target ∈ Q → e.target ∈ CG.support := fun h => hQ h
      by_cases htQ : e.target ∈ Q <;> simp [hsel, hs, ht, hq, htQ, hsupport]
    · by_cases ht : e.target = q
      · have hsupport : e.source ∈ Q → e.source ∈ CG.support := fun h => hQ h
        by_cases hsQ : e.source ∈ Q <;> simp [hsel, hs, ht, hq, hsQ, hsupport]
      · simp [hsel, hs, ht]
  · simp [hsel]

end Weight

/-! ## What the recursion keeps -/

section Invariant

variable {CG : CompatibilityGraph} {order : Finset C_vertex → List C_vertex} {enough : Int → Bool}

/-- The state at a call: a clique, the vertices adjacent to all of it, and its weight. -/
structure CallState (CG : CompatibilityGraph) (subg cand : Finset C_vertex) (st : Search) :
    Prop where
  Q_subset : st.Q ⊆ CG.support
  clique : CG.Clique st.Q
  mem_subg : ∀ v, v ∈ subg ↔ v ∈ CG.support ∧ ∀ w ∈ st.Q, CG.Adj w v
  cand_subset : cand ⊆ subg
  W_Q : st.W_Q = weight CG st.Q

/-- The best clique so far is a maximal one. -/
def Found (CG : CompatibilityGraph) (st : Search) : Prop :=
  IsMaximal CG st.Q_max ∧ st.W_Q_max = weight CG st.Q_max

/-- No clique has been found. -/
def Fresh (st : Search) : Prop := st.Q_max = ∅ ∧ st.W_Q_max = -2 ^ 31

/-- The best clique so far is at least as good as another: larger, or as large and as heavy. -/
def Best (CG : CompatibilityGraph) (st : Search) (K : Finset C_vertex) : Prop :=
  K.card < st.Q_max.card ∨ (K.card = st.Q_max.card ∧ weight CG K ≤ st.W_Q_max)

/-- What a call leaves behind. -/
structure Return (CG : CompatibilityGraph) (enough : Int → Bool) (subg cand : Finset C_vertex)
    (st st' : Search) : Prop where
  restored : (enough st'.W_Q_max = true ∧ cand ≠ ∅) ∨ (st'.Q = st.Q ∧ st'.W_Q = st.W_Q)
  kept : Found CG st' ∨ Fresh st'
  mono : ∀ K, Best CG st K → Best CG st' K
  first : subg = cand → Found CG st'
  covers : (∀ K, IsMaximal CG K → enough (weight CG K) = false) → enough (-2 ^ 31) = false →
    ∀ K, IsMaximal CG K → st.Q ⊆ K → K ⊆ st.Q ∪ cand → Best CG st' K

variable {subg cand : Finset C_vertex} {st st' : Search}

theorem CallState.subg_subset (h : CallState CG subg cand st) : subg ⊆ CG.support := fun v hv =>
  ((h.mem_subg v).mp hv).1

theorem CallState.notMem (hloop : CG.Loopless) (h : CallState CG subg cand st) {v : C_vertex}
    (hv : v ∈ subg) : v ∉ st.Q := fun hQ => (((h.mem_subg v).mp hv).2 v hQ).ne hloop rfl

/-- With nothing left that is adjacent to all of it, the clique is maximal. -/
theorem CallState.isMaximal (h : CallState CG ∅ cand st) : IsMaximal CG st.Q := by
  refine ⟨h.Q_subset, h.clique, fun v hv hclique => ?_⟩
  by_contra hQ
  refine Finset.notMem_empty v ((h.mem_subg v).mpr ⟨hv, fun w hw => ?_⟩)
  refine hclique w (Finset.mem_insert_of_mem hw) v (Finset.mem_insert_self v _) ?_
  rintro rfl
  exact hQ hw

/-- A vertex that is adjacent to all of a maximal clique does not exist. -/
theorem IsMaximal.not_adjacent (hloop : CG.Loopless) {K : Finset C_vertex} (h : IsMaximal CG K)
    {v : C_vertex} (hv : v ∈ CG.support) : ¬ ∀ w ∈ K, CG.Adj w v := fun hall =>
  (hall v (h.maximal v hv (h.clique.insert hall))).ne hloop rfl

theorem CallState.descend (hloop : CG.Loopless) (h : CallState CG subg cand st) {q : C_vertex}
    (hq : q ∈ cand) : CallState CG (neighbours CG q subg) (neighbours CG q cand)
      { st with Q := insert q st.Q, W_Q := st.W_Q + weightInto CG q (insert q st.Q) } := by
  have hqs := h.cand_subset hq
  have hqv := (h.mem_subg q).mp hqs
  have hsubg := h.subg_subset
  constructor
  case Q_subset => exact Finset.insert_subset hqv.1 h.Q_subset
  case clique => exact h.clique.insert hqv.2
  case mem_subg =>
    intro v
    rw [mem_neighbours hsubg, h.mem_subg, Finset.forall_mem_insert]
    constructor
    · rintro ⟨⟨hv, hall⟩, hadj⟩
      exact ⟨hv, hadj, hall⟩
    · rintro ⟨hv, hadj, hall⟩
      exact ⟨⟨hv, hall⟩, hadj⟩
  case cand_subset =>
    intro v hv
    rw [mem_neighbours (h.cand_subset.trans hsubg)] at hv
    exact (mem_neighbours hsubg).mpr ⟨h.cand_subset hv.1, hv.2⟩
  case W_Q =>
    rw [weight_insert hloop h.Q_subset (h.notMem hloop hqs)]
    exact congrArg (· + _) h.W_Q

/-- The loop goes on with one candidate less. -/
theorem CallState.erase (h : CallState CG subg cand st) {q : C_vertex} (hQ : st'.Q = st.Q)
    (hW : st'.W_Q = st.W_Q) : CallState CG subg (cand.erase q) st' where
  Q_subset := hQ ▸ h.Q_subset
  clique := hQ ▸ h.clique
  mem_subg := hQ ▸ h.mem_subg
  cand_subset := (Finset.erase_subset q cand).trans h.cand_subset
  W_Q := by rw [hW, hQ, h.W_Q]

/-- What is best stays best when only the clique at hand changes. -/
theorem Best.congr {K : Finset C_vertex} (hQ : st'.Q_max = st.Q_max) (hW : st'.W_Q_max = st.W_Q_max)
    (h : Best CG st K) : Best CG st' K := by
  unfold Best at h ⊢
  rwa [hQ, hW]

/-- A clique that has been found is not lost. -/
theorem found_of_mono (hmono : ∀ K, Best CG st K → Best CG st' K) (hkept : Found CG st' ∨ Fresh st')
    (h : Found CG st) : Found CG st' := by
  refine hkept.resolve_right fun hfresh => ?_
  have hbest : Best CG st' st.Q_max := hmono _ (.inr ⟨rfl, h.2.ge⟩)
  unfold Best at hbest
  rw [hfresh.1, hfresh.2, Finset.card_empty] at hbest
  have hpos := weight_nonneg CG st.Q_max
  omega

/-- A maximal clique that the call covers has a member that is not adjacent to the pivot. -/
theorem IsMaximal.exists_mem_ext (hloop : CG.Loopless) {K : Finset C_vertex} (h : IsMaximal CG K)
    (hcall : CallState CG subg cand st) (hcand : K ⊆ st.Q ∪ cand) {u : C_vertex}
    (hu : u ∈ subg) : ∃ v ∈ K, v ∈ cand \ neighbours CG u cand := by
  by_contra hnone
  push Not at hnone
  refine h.not_adjacent hloop (hcall.subg_subset hu) fun w hw => ?_
  rcases Finset.mem_union.mp (hcand hw) with hQ | hc
  · exact ((hcall.mem_subg u).mp hu).2 w hQ
  · have hmem : w ∈ neighbours CG u cand := by
      by_contra hnot
      exact hnone w hw (Finset.mem_sdiff.mpr ⟨hc, hnot⟩)
    exact ((mem_neighbours (hcall.cand_subset.trans hcall.subg_subset)).mp hmem).2.symm

/-- What the loop over `EXT_u` leaves behind: of the cliques, it covers those with a member in
`EXT_u`. -/
structure LoopReturn (CG : CompatibilityGraph) (enough : Int → Bool)
    (subg EXT_u cand : Finset C_vertex) (st st' : Search) : Prop where
  restored : (enough st'.W_Q_max = true ∧ EXT_u ≠ ∅) ∨ (st'.Q = st.Q ∧ st'.W_Q = st.W_Q)
  kept : Found CG st' ∨ Fresh st'
  mono : ∀ K, Best CG st K → Best CG st' K
  first : subg = cand → EXT_u ≠ ∅ → Found CG st'
  covers : (∀ K, IsMaximal CG K → enough (weight CG K) = false) → enough (-2 ^ 31) = false →
    ∀ K, IsMaximal CG K → st.Q ⊆ K → K ⊆ st.Q ∪ cand → (∃ v ∈ K, v ∈ EXT_u) → Best CG st' K

/-- Where no maximal clique has enough weight, the search is not ended early. -/
theorem not_enough (hnever : ∀ K, IsMaximal CG K → enough (weight CG K) = false)
    (hleast : enough (-2 ^ 31) = false) (hkept : Found CG st ∨ Fresh st) :
    enough st.W_Q_max = false := by
  rcases hkept with hfound | hfresh
  · rw [hfound.2]
    exact hnever _ hfound.1
  · rw [hfresh.2]
    exact hleast

theorem extend_return (hloop : CG.Loopless) (horder : ∀ s v, v ∈ order s ↔ v ∈ s)
    {expand : Finset C_vertex → Finset C_vertex → Search → Except Error Search} {bound : Nat}
    (hexpand : ∀ subg cand st, cand.card < bound → CallState CG subg cand st →
      Found CG st ∨ Fresh st → ∃ st', expand subg cand st = .ok st' ∧
        Return CG enough subg cand st st') (fuel : Nat) :
    ∀ EXT_u cand st, EXT_u.card ≤ fuel → EXT_u ⊆ cand → cand.card ≤ bound →
      CallState CG subg cand st → Found CG st ∨ Fresh st →
        ∃ st', extend CG order enough expand subg fuel EXT_u cand st = .ok st' ∧
          LoopReturn CG enough subg EXT_u cand st st' := by
  induction fuel with
  | zero =>
    intro EXT_u cand st hfuel _ _ _ hkept
    have hempty : EXT_u = ∅ := Finset.card_eq_zero.mp (Nat.le_zero.mp hfuel)
    refine ⟨st, by rw [extend, if_pos hempty], .inr ⟨rfl, rfl⟩, hkept, fun _ => id,
      fun _ hne => absurd hempty hne, fun _ _ K _ _ _ hK => ?_⟩
    obtain ⟨v, -, hv⟩ := hK
    exact absurd (hempty ▸ hv) (Finset.notMem_empty v)
  | succ fuel ih =>
    intro EXT_u cand st hfuel hsub hbound hcall hkept
    rw [extend]
    by_cases hempty : EXT_u = ∅
    · refine ⟨st, if_pos hempty, .inr ⟨rfl, rfl⟩, hkept, fun _ => id,
        fun _ hne => absurd hempty hne, fun _ _ K _ _ _ hK => ?_⟩
      obtain ⟨v, -, hv⟩ := hK
      exact absurd (hempty ▸ hv) (Finset.notMem_empty v)
    rw [if_neg hempty]
    obtain ⟨q, hq, hchoice⟩ := get_max_weight_vertex_spec CG horder hempty
    rw [hchoice]
    have hqcand := hsub hq
    have hqQ : q ∉ st.Q := hcall.notMem hloop (hcall.cand_subset hqcand)
    have hcard : (neighbours CG q cand).card < bound :=
      (Finset.card_lt_card (neighbours_ssubset hloop hqcand)).trans_le hbound
    -- The call with one more member.
    obtain ⟨st1, hrun, hret⟩ := hexpand _ _ _ hcard (hcall.descend hloop hqcand) hkept
    simp only [Except.bind, hrun]
    have hmono1 : ∀ K, Best CG st K → Best CG st1 K := fun K hK => hret.mono K (hK.congr rfl rfl)
    have hfirst1 : subg = cand → Found CG st1 := fun heq => hret.first (by rw [heq])
    have hcovers1 : (∀ K, IsMaximal CG K → enough (weight CG K) = false) →
        enough (-2 ^ 31) = false → ∀ K, IsMaximal CG K → st.Q ⊆ K → K ⊆ st.Q ∪ cand → q ∈ K →
          Best CG st1 K := by
      intro hnever hleast K hK hQK hKcand hqK
      refine hret.covers hnever hleast K hK (Finset.insert_subset hqK hQK) fun v hv => ?_
      rcases Finset.mem_union.mp (hKcand hv) with hvQ | hvc
      · exact Finset.mem_union_left _ (Finset.mem_insert_of_mem hvQ)
      · rcases eq_or_ne v q with rfl | hne
        · exact Finset.mem_union_left _ (Finset.mem_insert_self v _)
        · refine Finset.mem_union_right _ ((mem_neighbours
            (hcall.cand_subset.trans hcall.subg_subset)).mpr ⟨hvc, ?_⟩)
          exact hK.clique q hqK v hv hne.symm
    by_cases henough : enough st1.W_Q_max = true
    · rw [if_pos henough]
      refine ⟨st1, rfl, .inl ⟨henough, hempty⟩, hret.kept, hmono1, fun heq _ => hfirst1 heq,
        fun hnever hleast => ?_⟩
      rw [not_enough hnever hleast hret.kept] at henough
      cases henough
    · rw [if_neg henough]
      have hQ1 : st1.Q.erase q = st.Q := by
        rcases hret.restored with ⟨hen, -⟩ | ⟨hQ, -⟩
        · exact absurd hen henough
        · rw [hQ]
          exact Finset.erase_insert hqQ
      -- The loop goes on from the restored state.
      obtain ⟨st2, hrun2, hret2⟩ := ih (EXT_u.erase q) (cand.erase q)
        { st1 with Q := st1.Q.erase q, W_Q := st.W_Q }
        (by rw [Finset.card_erase_of_mem hq]; omega) (Finset.erase_subset_erase q hsub)
        ((Finset.card_le_card (Finset.erase_subset _ _)).trans hbound) (hcall.erase hQ1 rfl)
        hret.kept
      have hmono2 : ∀ K, Best CG st1 K → Best CG st2 K := fun K hK =>
        hret2.mono K (hK.congr rfl rfl)
      refine ⟨st2, hrun2, ?_, hret2.kept, fun K hK => hmono2 K (hmono1 K hK),
        fun heq _ => found_of_mono hmono2 hret2.kept (hfirst1 heq), ?_⟩
      · rcases hret2.restored with ⟨hen, -⟩ | ⟨hQ, hW⟩
        · exact .inl ⟨hen, hempty⟩
        · exact .inr ⟨hQ.trans hQ1, hW⟩
      · intro hnever hleast K hK hQK hKcand hKext
        by_cases hqK : q ∈ K
        · exact hmono2 K (hcovers1 hnever hleast K hK hQK hKcand hqK)
        · refine hret2.covers hnever hleast K hK (hQ1 ▸ hQK) (fun v hv => ?_) ?_
          · rcases Finset.mem_union.mp (hKcand hv) with hvQ | hvc
            · exact Finset.mem_union_left _ (hQ1 ▸ hvQ)
            · exact Finset.mem_union_right _ (Finset.mem_erase.mpr
                ⟨fun heq => hqK (heq ▸ hv), hvc⟩)
          · obtain ⟨v, hv, hvext⟩ := hKext
            exact ⟨v, hv, Finset.mem_erase.mpr ⟨fun heq => hqK (heq ▸ hv), hvext⟩⟩

/-- The calls that return at once. -/
theorem leaf_return (hloop : CG.Loopless) (hcall : CallState CG subg cand st)
    (hkept : Found CG st ∨ Fresh st) (hleaf : subg = ∅ ∧ st.Q.card < st.Q_max.card ∨
      subg = ∅ ∧ st.Q.card = st.Q_max.card ∧ st.W_Q ≤ st.W_Q_max ∨ subg ≠ ∅ ∧ cand = ∅) :
    Return CG enough subg cand st st := by
  refine ⟨.inr ⟨rfl, rfl⟩, hkept, fun _ => id, fun heq => hkept.resolve_right fun hfresh => ?_,
    fun _ _ K hK hQK hKcand => ?_⟩
  · -- A first clique would have been taken.
    have hpos := weight_nonneg CG st.Q
    have hW := hcall.W_Q
    rcases hleaf with ⟨-, hlt⟩ | ⟨-, -, hle⟩ | ⟨hne, hcand⟩
    · rw [hfresh.1, Finset.card_empty] at hlt
      exact absurd hlt (Nat.not_lt_zero _)
    · rw [hfresh.2] at hle
      omega
    · exact hne (heq.trans hcand)
  · have hcand : cand = ∅ := by
      rcases hleaf with ⟨rfl, -⟩ | ⟨rfl, -⟩ | ⟨-, hcand⟩
      · exact Finset.subset_empty.mp hcall.cand_subset
      · exact Finset.subset_empty.mp hcall.cand_subset
      · exact hcand
    rw [hcand, Finset.union_empty] at hKcand
    obtain rfl := Finset.Subset.antisymm hKcand hQK
    rcases hleaf with ⟨-, hlt⟩ | ⟨-, heq, hle⟩ | ⟨hne, -⟩
    · exact .inl hlt
    · exact .inr ⟨heq, hcall.W_Q ▸ hle⟩
    · obtain ⟨v, hv⟩ := Finset.nonempty_iff_ne_empty.mpr hne
      obtain ⟨hvs, hall⟩ := (hcall.mem_subg v).mp hv
      exact absurd hall (hK.not_adjacent hloop hvs)

theorem expand_return (hloop : CG.Loopless) (horder : ∀ s v, v ∈ order s ↔ v ∈ s) (fuel : Nat) :
    ∀ subg cand st, cand.card < fuel → CallState CG subg cand st → Found CG st ∨ Fresh st →
      ∃ st', expand CG order enough fuel subg cand st = .ok st' ∧
        Return CG enough subg cand st st' := by
  induction fuel with
  | zero => exact fun _ cand _ h => absurd h (Nat.not_lt_zero _)
  | succ fuel ih =>
    intro subg cand st hfuel hcall hkept
    rw [expand]
    by_cases hdone : subg = ∅ ∧ st.Q.card ≥ st.Q_max.card
    · rw [if_pos hdone]
      obtain ⟨rfl, hge⟩ := hdone
      have hcand : cand = ∅ := Finset.subset_empty.mp hcall.cand_subset
      by_cases hbetter : st.Q.card > st.Q_max.card ∨ st.W_Q > st.W_Q_max
      · -- The clique is a better one.
        have hfound : Found CG { st with Q_max := st.Q, W_Q_max := st.W_Q } :=
          ⟨hcall.isMaximal, hcall.W_Q⟩
        refine ⟨_, if_pos hbetter, .inr ⟨rfl, rfl⟩, .inl hfound, fun K hK => ?_, fun _ => hfound,
          fun _ _ K _ hQK hKcand => ?_⟩
        · unfold Best at hK ⊢
          dsimp only
          omega
        · rw [hcand, Finset.union_empty] at hKcand
          obtain rfl := Finset.Subset.antisymm hKcand hQK
          exact .inr ⟨rfl, hcall.W_Q.ge⟩
      · refine ⟨st, if_neg hbetter, leaf_return hloop hcall hkept (.inr (.inl ⟨rfl, ?_⟩))⟩
        omega
    rw [if_neg hdone]
    by_cases hcand : cand = ∅
    · rw [if_pos hcand]
      refine ⟨st, rfl, leaf_return hloop hcall hkept ?_⟩
      by_cases hsubg : subg = ∅
      · exact .inl ⟨hsubg, Nat.not_le.mp fun hge => hdone ⟨hsubg, hge⟩⟩
      · exact .inr (.inr ⟨hsubg, hcand⟩)
    rw [if_neg hcand]
    have hsubg : subg ≠ ∅ := by
      rintro rfl
      exact hcand (Finset.subset_empty.mp hcall.cand_subset)
    obtain ⟨u, hu, hchoice⟩ :=
      get_max_weighted_adiacent_intersection_spec CG horder hsubg cand
    simp only [hchoice, Except.bind]
    obtain ⟨st', hrun, hret⟩ := extend_return hloop horder ih
      (cand \ neighbours CG u cand).card _ cand st le_rfl Finset.sdiff_subset
      (Nat.le_of_lt_succ hfuel) hcall hkept
    refine ⟨st', hrun, hret.restored.imp_left fun h => ⟨h.1, hcand⟩, hret.kept, hret.mono,
      fun heq => hret.first heq ?_, fun hnever hleast K hK hQK hKcand => ?_⟩
    · -- The pivot is not one of its neighbours.
      refine Finset.ne_empty_of_mem (Finset.mem_sdiff.mpr ⟨heq ▸ hu, fun hmem => ?_⟩)
      exact (((mem_neighbours (hcall.cand_subset.trans hcall.subg_subset)).mp hmem).2).ne hloop rfl
    · exact hret.covers hnever hleast K hK hQK hKcand (hK.exists_mem_ext hloop hcall hKcand hu)

/-! ### Every call -/

/-- What holds at a call. -/
structure Proper (CG : CompatibilityGraph) (c : Call) : Prop where
  state : CallState CG c.subg c.cand c.st
  kept : Found CG c.st ∨ Fresh c.st
  fuel : c.cand.card < c.fuel

theorem extendCalls_proper (hloop : CG.Loopless) (horder : ∀ s v, v ∈ order s ↔ v ∈ s)
    {expand : Finset C_vertex → Finset C_vertex → Search → Except Error Search}
    {expandCalls : Finset C_vertex → Finset C_vertex → Search → List Call} {bound : Nat}
    (hexpand : ∀ subg cand st, cand.card < bound → CallState CG subg cand st →
      Found CG st ∨ Fresh st → ∃ st', expand subg cand st = .ok st' ∧
        Return CG enough subg cand st st')
    (hcalls : ∀ subg cand st, cand.card < bound → CallState CG subg cand st →
      Found CG st ∨ Fresh st → ∀ c ∈ expandCalls subg cand st, Proper CG c) (fuel : Nat) :
    ∀ EXT_u cand st, EXT_u ⊆ cand → cand.card ≤ bound → CallState CG subg cand st →
      Found CG st ∨ Fresh st →
        ∀ c ∈ extendCalls CG order enough expand expandCalls subg fuel EXT_u cand st,
          Proper CG c := by
  induction fuel with
  | zero => exact fun _ _ _ _ _ _ _ c hc => absurd hc List.not_mem_nil
  | succ fuel ih =>
    intro EXT_u cand st hsub hbound hcall hkept c hc
    rw [extendCalls] at hc
    by_cases hempty : EXT_u = ∅
    · rw [if_pos hempty] at hc
      exact absurd hc List.not_mem_nil
    obtain ⟨q, hq, hchoice⟩ := get_max_weight_vertex_spec CG horder hempty
    have hqcand := hsub hq
    have hqQ : q ∉ st.Q := hcall.notMem hloop (hcall.cand_subset hqcand)
    have hcard : (neighbours CG q cand).card < bound :=
      (Finset.card_lt_card (neighbours_ssubset hloop hqcand)).trans_le hbound
    have hdescend := hcall.descend hloop hqcand
    obtain ⟨st1, hrun, hret⟩ := hexpand _ _ _ hcard hdescend hkept
    rw [if_neg hempty, hchoice] at hc
    simp only [hrun] at hc
    rcases List.mem_append.mp hc with hc | hc
    · exact hcalls _ _ _ hcard hdescend hkept c hc
    · by_cases henough : enough st1.W_Q_max = true
      · rw [if_pos henough] at hc
        exact absurd hc List.not_mem_nil
      · rw [if_neg henough] at hc
        have hQ1 : st1.Q.erase q = st.Q := by
          rcases hret.restored with ⟨hen, -⟩ | ⟨hQ, -⟩
          · exact absurd hen henough
          · rw [hQ]
            exact Finset.erase_insert hqQ
        exact ih (EXT_u.erase q) (cand.erase q) { st1 with Q := st1.Q.erase q, W_Q := st.W_Q }
          (Finset.erase_subset_erase q hsub)
          ((Finset.card_le_card (Finset.erase_subset _ _)).trans hbound) (hcall.erase hQ1 rfl)
          hret.kept c hc

theorem expandCalls_proper (hloop : CG.Loopless) (horder : ∀ s v, v ∈ order s ↔ v ∈ s)
    (fuel : Nat) : ∀ subg cand st, cand.card < fuel → CallState CG subg cand st →
      Found CG st ∨ Fresh st → ∀ c ∈ expandCalls CG order enough fuel subg cand st,
        Proper CG c := by
  induction fuel with
  | zero => exact fun _ cand _ h => absurd h (Nat.not_lt_zero _)
  | succ fuel ih =>
    intro subg cand st hfuel hcall hkept c hc
    rw [expandCalls] at hc
    rcases List.mem_cons.mp hc with rfl | hc
    · exact ⟨hcall, hkept, hfuel⟩
    by_cases hleaf : subg = ∅ ∧ st.Q.card ≥ st.Q_max.card ∨ cand = ∅
    · rw [if_pos hleaf] at hc
      exact absurd hc List.not_mem_nil
    · rw [if_neg hleaf] at hc
      have hsubg : subg ≠ ∅ := by
        rintro rfl
        exact hleaf (.inr (Finset.subset_empty.mp hcall.cand_subset))
      obtain ⟨u, -, hchoice⟩ :=
        get_max_weighted_adiacent_intersection_spec CG horder hsubg cand
      rw [hchoice] at hc
      exact extendCalls_proper hloop horder (expand_return hloop horder fuel) ih _ _ cand st
        Finset.sdiff_subset (Nat.le_of_lt_succ hfuel) hcall hkept c hc

theorem initial_proper (CG : CompatibilityGraph) :
    Proper CG ⟨CG.support.card + 1, CG.support, CG.support, initial⟩ where
  state :=
    { Q_subset := Finset.empty_subset _
      clique := fun u hu => absurd hu (Finset.notMem_empty u)
      mem_subg := fun v => (and_iff_left fun w hw => absurd hw (Finset.notMem_empty w)).symm
      cand_subset := Finset.Subset.refl _
      W_Q := by simp [initial, weight] }
  kept := .inr ⟨rfl, rfl⟩
  fuel := Nat.lt_succ_self _

/-! ### The clique that is returned -/

/-- A clique lies in a maximal one. -/
theorem exists_isMaximal {K : Finset C_vertex} (hK : K ⊆ CG.support) (hclique : CG.Clique K) :
    ∃ K', K ⊆ K' ∧ IsMaximal CG K' := by
  induction hn : CG.support.card - K.card using Nat.strong_induction_on generalizing K with
  | _ n ih =>
    by_cases hmax : ∀ v ∈ CG.support, CG.Clique (insert v K) → v ∈ K
    · exact ⟨K, Finset.Subset.refl K, hK, hclique, hmax⟩
    · push Not at hmax
      obtain ⟨v, hv, hins, hnot⟩ := hmax
      have hsub : insert v K ⊆ CG.support := Finset.insert_subset hv hK
      have hcard := Finset.card_le_card hsub
      rw [Finset.card_insert_of_notMem hnot] at hcard
      obtain ⟨K', hle, hK'⟩ := ih (CG.support.card - (insert v K).card)
        (by rw [Finset.card_insert_of_notMem hnot]; omega) hsub hins rfl
      exact ⟨K', (Finset.subset_insert v K).trans hle, hK'⟩

/-- Largest among the cliques of the graph, and heaviest among the largest. -/
def IsBest (CG : CompatibilityGraph) (Q : Finset C_vertex) : Prop :=
  Q ⊆ CG.support ∧ CG.Clique Q ∧ ∀ K ⊆ CG.support, CG.Clique K →
    K.card ≤ Q.card ∧ (K.card = Q.card → weight CG K ≤ weight CG Q)

/-- With any bound the search returns a maximal clique, and one that is best when the bound is
never reached.  At each call the state is what the arguments say, and a call that does not end
the search leaves it as it was. -/
theorem weighted_clique_exact (hloop : CG.Loopless) (horder : ∀ s v, v ∈ order s ↔ v ∈ s)
    (upper_bound : Int) :
    (∃ st, TTT_maximal_weighted_clique CG order upper_bound = .ok st ∧ IsMaximal CG st.Q_max ∧
      ((∀ K, IsMaximal CG K → weight CG K < upper_bound) → IsBest CG st.Q_max)) ∧
    ∀ c ∈ allCalls CG order fun W_Q_max => upper_bound ≤ W_Q_max,
      CallState CG c.subg c.cand c.st ∧
        ∃ st', expand CG order (fun W_Q_max => upper_bound ≤ W_Q_max) c.fuel c.subg c.cand c.st =
            .ok st' ∧
          ((upper_bound ≤ st'.W_Q_max ∧ c.cand ≠ ∅) ∨ (st'.Q = c.st.Q ∧ st'.W_Q = c.st.W_Q)) := by
  have hinitial := initial_proper CG
  constructor
  · have hreturn : ∃ st, TTT_maximal_weighted_clique CG order upper_bound = .ok st ∧
        Return CG (fun W_Q_max => upper_bound ≤ W_Q_max) CG.support CG.support initial st :=
      expand_return hloop horder _ _ _ _ hinitial.fuel hinitial.state hinitial.kept
    obtain ⟨st, hrun, hret⟩ := hreturn
    obtain ⟨hmax, hweight⟩ := hret.first rfl
    refine ⟨st, hrun, hmax, fun hnever => ⟨hmax.subset, hmax.clique, fun K hK hclique => ?_⟩⟩
    have hpos : 0 < upper_bound := (weight_nonneg CG _).trans_lt (hnever _ hmax)
    have hcovers : ∀ K, IsMaximal CG K → Best CG st K := fun K hK =>
      hret.covers (fun K hK => decide_eq_false (Int.not_le.mpr (hnever K hK)))
        (decide_eq_false (by omega)) K hK (Finset.empty_subset K)
        (hK.subset.trans Finset.subset_union_right)
    obtain ⟨K', hle, hK'⟩ := exists_isMaximal hK hclique
    have hcard := Finset.card_le_card hle
    have hbest := hcovers K' hK'
    unfold Best at hbest
    refine ⟨by omega, fun heq => ?_⟩
    -- A clique of the largest size is itself maximal.
    obtain rfl : K = K' := Finset.eq_of_subset_of_card_le hle (by omega)
    rw [← hweight]
    omega
  · intro c hc
    have hproper := expandCalls_proper hloop horder _ _ _ _ hinitial.fuel hinitial.state
      hinitial.kept c hc
    obtain ⟨st', hrun, hret⟩ := expand_return hloop horder c.fuel c.subg c.cand c.st hproper.fuel
      hproper.state hproper.kept
    exact ⟨hproper.state, st', hrun, hret.restored.imp_left fun h =>
      ⟨of_decide_eq_true h.1, h.2⟩⟩

/-- A triangle, and a heavier edge beside it. -/
def triangle : CompatibilityGraph where
  edges := [⟨0, 0, 1, 1⟩, ⟨1, 1, 2, 1⟩, ⟨2, 0, 2, 1⟩, ⟨3, 2, 3, 9⟩]
  mask := 1
  selector := fun _ => 1
  support := {0, 1, 2, 3}

theorem weighted_clique_exact_triangle :
    (∃ st, TTT_maximal_weighted_clique triangle (fun s => s.sort (· ≤ ·)) 31 = .ok st ∧
      IsMaximal triangle st.Q_max ∧
      ((∀ K, IsMaximal triangle K → weight triangle K < 31) → IsBest triangle st.Q_max)) ∧
    ∀ c ∈ allCalls triangle (fun s => s.sort (· ≤ ·)) fun W_Q_max => (31 : Int) ≤ W_Q_max,
      CallState triangle c.subg c.cand c.st ∧
        ∃ st', expand triangle (fun s => s.sort (· ≤ ·)) (fun W_Q_max => (31 : Int) ≤ W_Q_max)
            c.fuel c.subg c.cand c.st = .ok st' ∧
          ((31 ≤ st'.W_Q_max ∧ c.cand ≠ ∅) ∨ (st'.Q = c.st.Q ∧ st'.W_Q = c.st.W_Q)) :=
  weighted_clique_exact (by simp [Loopless, triangle]) (fun _ _ => Finset.mem_sort _) 31

end Invariant

end MaximalClique
end CliqueCovering
end Bambu
