/-
  Bambu.HLS.SlackPropagation

  `cdfc_module_binding::update_slack_starting_time`: chained operations share the least of their
  slacks.

  A vertex is taken out of the work set, in any order.  Its budget lowers the slacks of the
  operations chained to it, and theirs lower the budget, until the set is empty.
-/

import Mathlib.Data.Prod.Lex
import Mathlib.Algebra.Order.BigOperators.Group.Finset

namespace Bambu
namespace HLS
namespace SlackPropagation

/-! ## The model -/

structure Edge (V : Type) where
  source : V
  target : V
  selector : Nat

/-- `DFG_SCA_SELECTOR` -/
def dfgScaSelector : Nat := 1 <<< 7

def Edge.IsScalar {V : Type} (e : Edge V) : Prop := e.selector &&& dfgScaSelector ≠ 0

instance {V : Type} (e : Edge V) : Decidable e.IsScalar := inferInstanceAs (Decidable (_ ≠ _))

/-- The graph of the data and feedback data dependences, with the edges of each vertex in the
order in which they are gone through. -/
structure OpGraph (V : Type) where
  operations : Finset V
  edges : List (Edge V)
  in_edges : V → List (Edge V)
  out_edges : V → List (Edge V)
  mem_in_edges : ∀ v e, e ∈ in_edges v ↔ e ∈ edges ∧ e.target = v
  mem_out_edges : ∀ v e, e ∈ out_edges v ↔ e ∈ edges ∧ e.source = v
  source_mem : ∀ e ∈ edges, e.source ∈ operations
  target_mem : ∀ e ∈ edges, e.target ∈ operations

structure ChainingInformation (V R : Type) where
  may_be_chained_ops : V → V → Bool
  get_representative_in : V → R

/-- The times, and the work set `sorted_vertices`. -/
structure State (V T : Type) where
  slack_time : V → T
  starting_time : V → T
  sorted_vertices : Finset V

section Model

variable {V R T : Type} [DecidableEq V] [DecidableEq R] [LinearOrder T] [Add T] [Sub T]

/-- The test for two chained operations with one representative. -/
def ChainingInformation.chained (info : ChainingInformation V R) (a b : V) : Bool :=
  info.may_be_chained_ops a b && info.get_representative_in a == info.get_representative_in b

/-- The budget of the current vertex meets the slack of an operation chained to it. -/
def meetSlack (update_starting_time : Bool) (st : State V T × T) (u : V) : State V T × T :=
  let (s, new_current_budget) := st
  if s.slack_time u > new_current_budget then
    ({ slack_time := Function.update s.slack_time u new_current_budget
       starting_time :=
         if update_starting_time then
           Function.update s.starting_time u
             (s.starting_time u + (s.slack_time u - new_current_budget))
         else s.starting_time
       sorted_vertices := insert u s.sorted_vertices }, new_current_budget)
  else if s.slack_time u < new_current_budget then (s, s.slack_time u)
  else (s, new_current_budget)

variable (fdfg : OpGraph V) (info : ChainingInformation V R)

def meetInEdge (curr_vertex : V) (st : State V T × T) (ie : Edge V) : State V T × T :=
  if ie.IsScalar ∧ info.chained curr_vertex ie.source then meetSlack false st ie.source else st

def meetOutEdge (update_starting_time : Bool) (curr_vertex : V) (st : State V T × T)
    (oe : Edge V) : State V T × T :=
  if oe.IsScalar ∧ info.chained curr_vertex oe.target then
    meetSlack update_starting_time st oe.target
  else st

/-- The body of the loop, for the vertex that the work set yields. -/
def visit (update_starting_time only_backward only_forward : Bool) (curr_vertex : V)
    (s : State V T) : State V T :=
  let s := { s with sorted_vertices := s.sorted_vertices.erase curr_vertex }
  let current_budget := s.slack_time curr_vertex
  let st := (s, current_budget)
  let st :=
    if only_forward then st
    else (fdfg.in_edges curr_vertex).foldl (meetInEdge info curr_vertex) st
  let st :=
    if only_backward then st
    else (fdfg.out_edges curr_vertex).foldl (meetOutEdge info update_starting_time curr_vertex) st
  let (s, new_current_budget) := st
  if new_current_budget < current_budget then
    { s with
      sorted_vertices := insert curr_vertex s.sorted_vertices
      slack_time := Function.update s.slack_time curr_vertex new_current_budget }
  else s

/-- One turn of the loop: any vertex of the work set may be its first. -/
def Turn (update_starting_time only_backward only_forward : Bool) (s s' : State V T) : Prop :=
  ∃ curr_vertex ∈ s.sorted_vertices,
    s' = visit fdfg info update_starting_time only_backward only_forward curr_vertex s

end Model

/-! ## Chained operations -/

section Linked

variable {V R T : Type} [DecidableEq R] (fdfg : OpGraph V) (info : ChainingInformation V R)

/-- A scalar data edge between chained operations with one representative, in its direction or
against it. -/
def Linked (a b : V) : Prop :=
  info.chained a b = true ∧
    ∃ e ∈ fdfg.edges, e.IsScalar ∧
      (e.source = a ∧ e.target = b ∨ e.source = b ∧ e.target = a)

/-- Along chained scalar data edges. -/
def Connected (a b : V) : Prop := Relation.ReflTransGen (Linked fdfg info) a b

/-- The initial slacks of the operations connected with one. -/
def slacksAround (slack_time : V → T) (v : V) : Set T :=
  slack_time '' {u | u ∈ fdfg.operations ∧ Connected fdfg info v u}

end Linked

/-! ## One visit -/

section Visit

variable {V R T : Type} [LinearOrder T]

/-- What meeting neighbours does to the times, the work set and the budget. -/
structure Lowered (update_starting_time : Bool) (st st' : State V T × T) : Prop where
  budget_le : st'.2 ≤ st.2
  slack_le : ∀ u, st'.1.slack_time u ≤ st.1.slack_time u
  changed : ∀ u, st'.1.slack_time u = st.1.slack_time u ∨
    u ∈ st'.1.sorted_vertices ∧ st'.2 ≤ st'.1.slack_time u
  work_mono : st.1.sorted_vertices ⊆ st'.1.sorted_vertices
  work_new : ∀ u ∈ st'.1.sorted_vertices, u ∈ st.1.sorted_vertices ∨
    st'.1.slack_time u < st.1.slack_time u
  starting : update_starting_time = false → st'.1.starting_time = st.1.starting_time

namespace Lowered

variable {upd : Bool} {st st' st'' : State V T × T}

theorem refl (st : State V T × T) : Lowered upd st st where
  budget_le := le_rfl
  slack_le _ := le_rfl
  changed _ := .inl rfl
  work_mono := subset_rfl
  work_new _ h := .inl h
  starting _ := rfl

theorem trans (h : Lowered upd st st') (h' : Lowered upd st' st'') : Lowered upd st st'' where
  budget_le := h'.budget_le.trans h.budget_le
  slack_le u := (h'.slack_le u).trans (h.slack_le u)
  changed u := by
    rcases h'.changed u with heq' | hnew
    · rcases h.changed u with heq | ⟨hmem, hle⟩
      · exact .inl (heq'.trans heq)
      · exact .inr ⟨h'.work_mono hmem, heq' ▸ h'.budget_le.trans hle⟩
    · exact .inr hnew
  work_mono := h.work_mono.trans h'.work_mono
  work_new u hu := by
    rcases h'.work_new u hu with hold | hlt
    · exact (h.work_new u hold).imp_right fun hlt => (h'.slack_le u).trans_lt hlt
    · exact .inr (hlt.trans_le (h.slack_le u))
  starting hupd := (h'.starting hupd).trans (h.starting hupd)

/-- The edges that come in never touch the starting times. -/
theorem of_false (h : Lowered false st st') : Lowered upd st st' :=
  { h with starting := fun _ => h.starting rfl }

/-- Where the budget has not shrunk, a slack that was equal to it still is. -/
theorem keeps_budget (h : Lowered upd st st') (hb : st'.2 = st.2) {u : V}
    (hu : st.1.slack_time u = st.2) : st'.1.slack_time u = st'.2 := by
  rcases h.changed u with heq | ⟨-, hle⟩
  · rw [heq, hu, hb]
  · refine le_antisymm ?_ hle
    calc st'.1.slack_time u ≤ st.1.slack_time u := h.slack_le u
      _ = st'.2 := by rw [hu, hb]

end Lowered

variable [DecidableEq V] [Add T] [Sub T]

/-- A slack above the budget comes down to it. -/
theorem meetSlack_of_gt (upd : Bool) {s : State V T} {budget : T} {u : V}
    (h : s.slack_time u > budget) :
    ∃ starting_time, (upd = false → starting_time = s.starting_time) ∧
      meetSlack upd (s, budget) u =
        (⟨Function.update s.slack_time u budget, starting_time, insert u s.sorted_vertices⟩,
          budget) := by
  unfold meetSlack
  dsimp only
  rw [if_pos h]
  exact ⟨_, fun hupd => if_neg (by simp [hupd]), rfl⟩

/-- The budget comes down to a slack below it. -/
theorem meetSlack_of_le {upd : Bool} {s : State V T} {budget : T} {u : V}
    (h : s.slack_time u ≤ budget) : meetSlack upd (s, budget) u = (s, s.slack_time u) := by
  unfold meetSlack
  dsimp only
  rw [if_neg (not_lt.mpr h)]
  rcases h.lt_or_eq with hlt | heq
  · exact if_pos hlt
  · rw [if_neg heq.not_lt, heq]

theorem meetSlack_lowered (upd : Bool) (st : State V T × T) (u : V) :
    Lowered upd st (meetSlack upd st u) := by
  obtain ⟨s, budget⟩ := st
  rcases lt_or_ge budget (s.slack_time u) with hgt | hle
  · obtain ⟨starting_time, hstarting, heq⟩ := meetSlack_of_gt upd hgt
    rw [heq]
    have hne : ∀ w, w ≠ u → Function.update s.slack_time u budget w = s.slack_time w :=
      fun w hw => Function.update_of_ne hw _ _
    have hself : Function.update s.slack_time u budget u = budget := Function.update_self _ _ _
    refine ⟨le_rfl, fun w => ?_, fun w => ?_, Finset.subset_insert _ _, fun w hw => ?_, hstarting⟩
    · rcases eq_or_ne w u with rfl | hw
      · exact hself.trans_le hgt.le
      · exact (hne w hw).le
    · rcases eq_or_ne w u with rfl | hw
      · exact .inr ⟨Finset.mem_insert_self _ _, hself.ge⟩
      · exact .inl (hne w hw)
    · rcases Finset.mem_insert.mp hw with rfl | hold
      · exact .inr (hself.trans_lt hgt)
      · exact .inl hold
  · rw [meetSlack_of_le hle]
    exact ⟨hle, fun _ => le_rfl, fun _ => .inl rfl, subset_rfl, fun _ h => .inl h, fun _ => rfl⟩

/-- After the two have met, they are equal, if the budget has not shrunk. -/
theorem meetSlack_equal {upd : Bool} {st : State V T × T} {u : V}
    (hb : (meetSlack upd st u).2 = st.2) : (meetSlack upd st u).1.slack_time u = st.2 := by
  obtain ⟨s, budget⟩ := st
  rcases lt_or_ge budget (s.slack_time u) with hgt | hle
  · obtain ⟨starting_time, -, heq⟩ := meetSlack_of_gt upd hgt
    rw [heq]
    exact Function.update_self _ _ _
  · rw [meetSlack_of_le hle] at hb ⊢
    exact hb

section Edges

variable [DecidableEq R] (info : ChainingInformation V R) (upd : Bool) (v : V)

/-- The loop over the edges of one direction, whose ends away from the vertex are `other`. -/
def meetEdges (other : Edge V → V) (edges : List (Edge V)) (st : State V T × T) :
    State V T × T :=
  edges.foldl
    (fun st e => if e.IsScalar ∧ info.chained v (other e) then meetSlack upd st (other e) else st) st

variable {info upd v} {other : Edge V → V}

theorem meetEdges_lowered (info : ChainingInformation V R) (upd : Bool) (v : V)
    (other : Edge V → V) (edges : List (Edge V)) (st : State V T × T) :
    Lowered upd st (meetEdges info upd v other edges st) := by
  induction edges generalizing st with
  | nil => exact .refl st
  | cons e rest ih =>
    refine .trans ?_ (ih _)
    dsimp only
    split_ifs
    · exact meetSlack_lowered upd st _
    · exact .refl st

/-- A budget that has not shrunk is the slack of every chained neighbour. -/
theorem meetEdges_equal {edges : List (Edge V)} {st : State V T × T}
    (hb : (meetEdges info upd v other edges st).2 = st.2) {e : Edge V} (he : e ∈ edges)
    (hscalar : e.IsScalar) (hchained : info.chained v (other e) = true) :
    (meetEdges info upd v other edges st).1.slack_time (other e) = st.2 := by
  induction edges generalizing st with
  | nil => exact absurd he List.not_mem_nil
  | cons e' rest ih =>
    have hfirst := meetEdges_lowered info upd v other [e'] st
    have hrest := meetEdges_lowered info upd v other rest (meetEdges info upd v other [e'] st)
    have hb1 : (meetEdges info upd v other [e'] st).2 = st.2 :=
      le_antisymm hfirst.budget_le (hb.symm.le.trans hrest.budget_le)
    have hb2 := hb.trans hb1.symm
    rcases List.mem_cons.mp he with rfl | he
    · have hmeet : meetEdges info upd v other [e] st = meetSlack upd st (other e) :=
        if_pos ⟨hscalar, hchained⟩
      refine (hrest.keeps_budget hb2 ?_).trans hb
      rw [hb1, hmeet]
      exact meetSlack_equal (hmeet ▸ hb1)
    · exact (ih hb2 he).trans hb1

/-- What holds of every slack and of the budget stays true, if the two ends of a link share it. -/
theorem meetEdges_induction {P : V → T → Prop} {W : V → Prop} {edges : List (Edge V)}
    (hlink : ∀ e ∈ edges, e.IsScalar → info.chained v (other e) = true →
      W (other e) ∧ ∀ x, P v x ↔ P (other e) x)
    {st : State V T × T} (hbudget : P v st.2) (hslack : ∀ u, P u (st.1.slack_time u))
    (hwork : ∀ u ∈ st.1.sorted_vertices, W u) :
    P v (meetEdges info upd v other edges st).2 ∧
      (∀ u, P u ((meetEdges info upd v other edges st).1.slack_time u)) ∧
      ∀ u ∈ (meetEdges info upd v other edges st).1.sorted_vertices, W u := by
  induction edges generalizing st with
  | nil => exact ⟨hbudget, hslack, hwork⟩
  | cons e rest ih =>
    have hrest := fun e' he' => hlink e' (List.mem_cons_of_mem e he')
    by_cases htest : e.IsScalar ∧ info.chained v (other e) = true
    · obtain ⟨hW, hP⟩ := hlink e List.mem_cons_self htest.1 htest.2
      have hmeet : meetEdges info upd v other (e :: rest) st =
          meetEdges info upd v other rest (meetSlack upd st (other e)) := by
        unfold meetEdges
        rw [List.foldl_cons, if_pos htest]
      rw [hmeet]
      obtain ⟨s, budget⟩ := st
      rcases lt_or_ge budget (s.slack_time (other e)) with hgt | hle
      · obtain ⟨starting_time, -, heq⟩ := meetSlack_of_gt upd hgt
        rw [heq]
        refine ih hrest hbudget (fun u => ?_) fun u hu => ?_
        · rcases eq_or_ne u (other e) with rfl | hne
          · exact (congrArg (P _) (Function.update_self _ _ _)).mpr ((hP _).mp hbudget)
          · exact (congrArg (P u) (Function.update_of_ne hne _ _)).mpr (hslack u)
        · rcases Finset.mem_insert.mp hu with rfl | hold
          · exact hW
          · exact hwork u hold
      · rw [meetSlack_of_le hle]
        exact ih hrest ((hP _).mpr (hslack _)) hslack hwork
    · have hskip : meetEdges info upd v other (e :: rest) st =
          meetEdges info upd v other rest st := by
        unfold meetEdges
        rw [List.foldl_cons, if_neg htest]
      rw [hskip]
      exact ih hrest hbudget hslack hwork

end Edges

end Visit

/-! ## What the turns keep -/

section Kept

variable {V R T : Type} [DecidableEq R] [LinearOrder T] {fdfg : OpGraph V}
  {info : ChainingInformation V R}

theorem Linked.symm (hsymm : ∀ a b, info.may_be_chained_ops a b = info.may_be_chained_ops b a)
    {a b : V} (h : Linked fdfg info a b) : Linked fdfg info b a := by
  obtain ⟨hchained, e, he, hscalar, hends⟩ := h
  refine ⟨?_, e, he, hscalar, hends.symm⟩
  unfold ChainingInformation.chained at hchained ⊢
  rw [Bool.and_eq_true, beq_iff_eq] at hchained ⊢
  exact ⟨hsymm b a ▸ hchained.1, hchained.2.symm⟩

theorem Linked.mem_operations {a b : V} (h : Linked fdfg info a b) :
    a ∈ fdfg.operations ∧ b ∈ fdfg.operations := by
  obtain ⟨-, e, he, -, ⟨rfl, rfl⟩ | ⟨rfl, rfl⟩⟩ := h
  · exact ⟨fdfg.source_mem e he, fdfg.target_mem e he⟩
  · exact ⟨fdfg.target_mem e he, fdfg.source_mem e he⟩

theorem Connected.trans_iff
    (hsymm : ∀ a b, info.may_be_chained_ops a b = info.may_be_chained_ops b a) {a b c : V}
    (h : Linked fdfg info a b) : Connected fdfg info a c ↔ Connected fdfg info b c :=
  ⟨.head (h.symm hsymm), .head h⟩

theorem Connected.mem_operations {a b : V} (h : Connected fdfg info a b)
    (ha : a ∈ fdfg.operations) : b ∈ fdfg.operations := by
  induction h with
  | refl => exact ha
  | tail _ hlink _ => exact hlink.mem_operations.2

/-- What is true between two turns: slacks come from around, those of linked operations are
equal once both are out of the work set. -/
structure Invariant (fdfg : OpGraph V) (info : ChainingInformation V R) (slack_time : V → T)
    (s : State V T) : Prop where
  attained : ∀ u, ∃ w, Connected fdfg info u w ∧ slack_time w = s.slack_time u
  le : ∀ u, s.slack_time u ≤ slack_time u
  agree : ∀ a b, Linked fdfg info a b → a ∉ s.sorted_vertices → b ∉ s.sorted_vertices →
    s.slack_time a = s.slack_time b
  work : ∀ u ∈ s.sorted_vertices, u ∈ fdfg.operations

theorem Invariant.initial (fdfg : OpGraph V) (info : ChainingInformation V R)
    (slack_time starting_time : V → T) :
    Invariant fdfg info slack_time ⟨slack_time, starting_time, fdfg.operations⟩ where
  attained u := ⟨u, .refl, rfl⟩
  le _ := le_rfl
  agree _ _ h ha _ := absurd h.mem_operations.1 ha
  work _ h := h

/-- A visit in both directions. -/
structure Visited (fdfg : OpGraph V) (info : ChainingInformation V R) (upd : Bool) (v : V)
    (s s' : State V T) : Prop where
  slack_le : ∀ u, s'.slack_time u ≤ s.slack_time u
  changed : ∀ u, s'.slack_time u = s.slack_time u ∨ u ∈ s'.sorted_vertices
  work_mono : ∀ u ∈ s.sorted_vertices, u = v ∨ u ∈ s'.sorted_vertices
  work_new : ∀ u ∈ s'.sorted_vertices, (u ∈ s.sorted_vertices ∧ u ≠ v) ∨
    s'.slack_time u < s.slack_time u
  settled : v ∉ s'.sorted_vertices → ∀ u, Linked fdfg info v u → s'.slack_time u = s'.slack_time v
  starting : upd = false → s'.starting_time = s.starting_time
  shared : ∀ P : V → T → Prop, (∀ u, Linked fdfg info v u → ∀ x, P v x ↔ P u x) →
    (∀ u, P u (s.slack_time u)) → ∀ u, P u (s'.slack_time u)
  inside : ∀ u ∈ s'.sorted_vertices, u ∈ s.sorted_vertices ∨ u = v ∨ Linked fdfg info v u

variable {upd : Bool} {v : V} {slack_time : V → T} {s s' : State V T}

theorem Invariant.visit
    (hsymm : ∀ a b, info.may_be_chained_ops a b = info.may_be_chained_ops b a)
    (hinv : Invariant fdfg info slack_time s) (hv : v ∈ s.sorted_vertices)
    (h : Visited fdfg info upd v s s') : Invariant fdfg info slack_time s' where
  attained := h.shared (fun u x => ∃ w, Connected fdfg info u w ∧ slack_time w = x)
    (fun u hlink x => exists_congr fun w => and_congr_left' (Connected.trans_iff hsymm hlink))
    hinv.attained
  le u := (h.slack_le u).trans (hinv.le u)
  agree := by
    intro a b hlink ha hb
    -- The vertex has just been compared with the others; what the others had, they keep.
    rcases eq_or_ne a v with rfl | hav
    · exact (h.settled ha b hlink).symm
    rcases eq_or_ne b v with rfl | hbv
    · exact h.settled hb a (hlink.symm hsymm)
    have hkept : ∀ u, u ≠ v → u ∉ s'.sorted_vertices →
        u ∉ s.sorted_vertices ∧ s'.slack_time u = s.slack_time u := fun u huv hu =>
      ⟨fun hold => (h.work_mono u hold).elim huv hu, (h.changed u).resolve_right hu⟩
    obtain ⟨ha, hsa⟩ := hkept a hav ha
    obtain ⟨hb, hsb⟩ := hkept b hbv hb
    rw [hsa, hsb]
    exact hinv.agree a b hlink ha hb
  work := by
    intro u hu
    rcases h.inside u hu with hold | rfl | hlink
    · exact hinv.work u hold
    · exact hinv.work u hv
    · exact hlink.mem_operations.2

/-- Once the work set is empty, connected operations share the least of their slacks. -/
theorem Invariant.isLeast
    (hinv : Invariant fdfg info slack_time s) (hdone : s.sorted_vertices = ∅) {v : V}
    (hv : v ∈ fdfg.operations) : IsLeast (slacksAround fdfg info slack_time v)
    (s.slack_time v) := by
  have hshared : ∀ u, Connected fdfg info v u → s.slack_time v = s.slack_time u := by
    intro u hu
    induction hu with
    | refl => rfl
    | tail _ hlink ih => exact ih.trans (hinv.agree _ _ hlink (by simp [hdone]) (by simp [hdone]))
  constructor
  · obtain ⟨w, hw, heq⟩ := hinv.attained v
    exact ⟨w, ⟨hw.mem_operations hv, hw⟩, heq⟩
  · rintro x ⟨u, ⟨-, hu⟩, rfl⟩
    calc s.slack_time v = s.slack_time u := hshared u hu
      _ ≤ slack_time u := hinv.le u

/-! ### What goes down -/

/-- The number of initial slacks below one. -/
def rank (fdfg : OpGraph V) (slack_time : V → T) (x : T) : Nat :=
  ((fdfg.operations.image slack_time).filter (· < x)).card

/-- What goes down with every turn: the ranks of the slacks, and between two of their changes
the size of the work set. -/
def remaining (fdfg : OpGraph V) (slack_time : V → T) (s : State V T) : Nat ×ₗ Nat :=
  toLex (∑ u ∈ fdfg.operations, rank fdfg slack_time (s.slack_time u), s.sorted_vertices.card)

theorem rank_mono {x y : T} (h : x ≤ y) : rank fdfg slack_time x ≤ rank fdfg slack_time y :=
  Finset.card_le_card (Finset.monotone_filter_right _ fun _ _ hz => hz.trans_le h)

theorem rank_lt {x y : T} (hx : x ∈ fdfg.operations.image slack_time) (h : x < y) :
    rank fdfg slack_time x < rank fdfg slack_time y := by
  refine Finset.card_lt_card ⟨Finset.monotone_filter_right _ fun _ _ hz => hz.trans h, fun hsub => ?_⟩
  exact lt_irrefl x (Finset.mem_filter.mp (hsub (Finset.mem_filter.mpr ⟨hx, h⟩))).2

theorem Visited.remaining_lt (hinv' : Invariant fdfg info slack_time s')
    (hv : v ∈ s.sorted_vertices)
    (h : Visited fdfg info upd v s s') :
    remaining fdfg slack_time s' < remaining fdfg slack_time s := by
  classical
  have hranks : ∀ u ∈ fdfg.operations, rank fdfg slack_time (s'.slack_time u) ≤
      rank fdfg slack_time (s.slack_time u) := fun u _ => rank_mono (h.slack_le u)
  rw [remaining, remaining, Prod.Lex.toLex_lt_toLex]
  by_cases hlow : ∃ u ∈ fdfg.operations, s'.slack_time u < s.slack_time u
  · obtain ⟨u, hu, hlt⟩ := hlow
    left
    refine Finset.sum_lt_sum hranks ⟨u, hu, rank_lt ?_ hlt⟩
    obtain ⟨w, hw, heq⟩ := hinv'.attained u
    exact Finset.mem_image.mpr ⟨w, hw.mem_operations hu, heq⟩
  · have hsub : s'.sorted_vertices ⊆ s.sorted_vertices.erase v := by
      intro u hu
      rcases h.work_new u hu with ⟨hold, hne⟩ | hlt
      · exact Finset.mem_erase.mpr ⟨hne, hold⟩
      · exact absurd ⟨u, hinv'.work u hu, hlt⟩ hlow
    have hcard := Finset.card_lt_card (Finset.erase_ssubset hv)
    rcases (Finset.sum_le_sum hranks).lt_or_eq with hlt | heq
    · exact .inl hlt
    · exact .inr ⟨heq, (Finset.card_le_card hsub).trans_lt hcard⟩

end Kept

/-! ## The loop -/

section Loop

variable {V R T : Type} [DecidableEq V] [DecidableEq R] [LinearOrder T] [Add T] [Sub T]
  {fdfg : OpGraph V} {info : ChainingInformation V R}

/-- The two loops over the edges of the vertex, one after the other. -/
theorem visit_eq (fdfg : OpGraph V) (info : ChainingInformation V R) (upd : Bool) (v : V)
    (s : State V T) :
    ∃ st, st = meetEdges info upd v Edge.target (fdfg.out_edges v)
        (meetEdges info false v Edge.source (fdfg.in_edges v)
          ({ s with sorted_vertices := s.sorted_vertices.erase v }, s.slack_time v)) ∧
      visit fdfg info upd false false v s =
        if st.2 < s.slack_time v then
          { st.1 with
            sorted_vertices := insert v st.1.sorted_vertices
            slack_time := Function.update st.1.slack_time v st.2 }
        else st.1 := ⟨_, rfl, rfl⟩

theorem visit_spec (fdfg : OpGraph V) (info : ChainingInformation V R) (upd : Bool) (v : V)
    (s : State V T) :
    Visited fdfg info upd v s (visit fdfg info upd false false v s) := by
  obtain ⟨st, hst, hvisit⟩ := visit_eq fdfg info upd v s
  -- The states before, between and after the two loops.
  generalize hst0 : (({ s with sorted_vertices := s.sorted_vertices.erase v }, s.slack_time v) :
    State V T × T) = st0 at hst
  generalize hst1 : meetEdges info false v Edge.source (fdfg.in_edges v) st0 = st1 at hst
  have hin : Lowered upd st0 st1 := (hst1 ▸ meetEdges_lowered .. : Lowered false st0 st1).of_false
  have hout : Lowered upd st1 st := hst ▸ meetEdges_lowered ..
  have hboth : Lowered upd st0 st := hin.trans hout
  have hslack0 : st0.1.slack_time = s.slack_time := by rw [← hst0]
  have hwork0 : st0.1.sorted_vertices = s.sorted_vertices.erase v := by rw [← hst0]
  have hstarting0 : st0.1.starting_time = s.starting_time := by rw [← hst0]
  have hbudget0 : st0.2 = s.slack_time v := by rw [← hst0]
  have hlinked_in : ∀ e ∈ fdfg.in_edges v, e.IsScalar → info.chained v e.source = true →
      Linked fdfg info v e.source := by
    intro e he hscalar hchained
    obtain ⟨he, hv⟩ := (fdfg.mem_in_edges v e).mp he
    exact ⟨hchained, e, he, hscalar, .inr ⟨rfl, hv⟩⟩
  have hlinked_out : ∀ e ∈ fdfg.out_edges v, e.IsScalar → info.chained v e.target = true →
      Linked fdfg info v e.target := by
    intro e he hscalar hchained
    obtain ⟨he, hv⟩ := (fdfg.mem_out_edges v e).mp he
    exact ⟨hchained, e, he, hscalar, .inl ⟨hv, rfl⟩⟩
  have hshared : ∀ P : V → T → Prop, (∀ u, Linked fdfg info v u → ∀ x, P v x ↔ P u x) →
      (∀ u, P u (s.slack_time u)) → P v st.2 ∧ (∀ u, P u (st.1.slack_time u)) ∧
        ∀ u ∈ st.1.sorted_vertices, u ∈ s.sorted_vertices ∨ Linked fdfg info v u := by
    intro P hP hs
    have hfirst : P v st1.2 ∧ (∀ u, P u (st1.1.slack_time u)) ∧
        ∀ u ∈ st1.1.sorted_vertices, u ∈ s.sorted_vertices ∨ Linked fdfg info v u := by
      rw [← hst1]
      refine meetEdges_induction (fun e he hscalar hchained =>
        ⟨.inr (hlinked_in e he hscalar hchained), hP _ (hlinked_in e he hscalar hchained)⟩)
        (hbudget0 ▸ hs v) (hslack0 ▸ hs) (fun u hu => ?_)
      exact .inl (Finset.mem_of_mem_erase (hwork0 ▸ hu))
    obtain ⟨hbudget1, hslack1, hwork1⟩ := hfirst
    rw [hst]
    exact meetEdges_induction
      (fun e he hscalar hchained => ⟨.inr (hlinked_out e he hscalar hchained),
        hP _ (hlinked_out e he hscalar hchained)⟩) hbudget1 hslack1 hwork1
  have hinside := (hshared (fun _ _ => True) (fun _ _ _ => Iff.rfl) fun _ => trivial).2.2
  have hle : st.2 ≤ s.slack_time v := hbudget0 ▸ hboth.budget_le
  by_cases hlt : st.2 < s.slack_time v
  · -- The vertex comes back with the lower budget.
    rw [hvisit, if_pos hlt]
    have hne : ∀ u, u ≠ v → Function.update st.1.slack_time v st.2 u = st.1.slack_time u :=
      fun u hu => Function.update_of_ne hu _ _
    have hself : Function.update st.1.slack_time v st.2 v = st.2 := Function.update_self _ _ _
    constructor
    case slack_le =>
      intro u
      rcases eq_or_ne u v with rfl | hu
      · exact hself.trans_le hle
      · exact (hne u hu).trans_le (hslack0 ▸ hboth.slack_le u)
    case changed =>
      intro u
      rcases eq_or_ne u v with rfl | hu
      · exact .inr (Finset.mem_insert_self _ _)
      · rcases hboth.changed u with heq | ⟨hmem, -⟩
        · exact .inl ((hne u hu).trans (heq.trans (congrFun hslack0 u)))
        · exact .inr (Finset.mem_insert_of_mem hmem)
    case work_mono =>
      intro u hu
      rcases eq_or_ne u v with rfl | hne
      · exact .inl rfl
      · exact .inr (Finset.mem_insert_of_mem (hboth.work_mono
          (hwork0 ▸ Finset.mem_erase.mpr ⟨hne, hu⟩)))
    case work_new =>
      intro u hu
      rcases eq_or_ne u v with rfl | huv
      · exact .inr (hself.trans_lt hlt)
      · rcases hboth.work_new u (Finset.mem_of_mem_insert_of_ne hu huv) with hold | hlow
        · rw [hwork0] at hold
          exact .inl ⟨Finset.mem_of_mem_erase hold, huv⟩
        · exact .inr ((hne u huv).trans_lt (hslack0 ▸ hlow))
    case settled => exact fun hv => absurd (Finset.mem_insert_self _ _) hv
    case starting => exact fun hupd => (hboth.starting hupd).trans hstarting0
    case shared =>
      intro P hP hs u
      obtain ⟨hb, hslack, -⟩ := hshared P hP hs
      rcases eq_or_ne u v with rfl | hu
      · exact (congrArg (P u) hself).mpr hb
      · exact (congrArg (P u) (hne u hu)).mpr (hslack u)
    case inside =>
      intro u hu
      rcases Finset.mem_insert.mp hu with rfl | hu
      · exact .inr (.inl rfl)
      · exact (hinside u hu).imp_right .inr
  · rw [hvisit, if_neg hlt]
    have hb : st.2 = st0.2 := (le_antisymm hle (not_lt.mp hlt)).trans hbudget0.symm
    have hb1 : st1.2 = st0.2 := le_antisymm hin.budget_le (hb.symm.le.trans hout.budget_le)
    constructor
    case slack_le => exact fun u => hslack0 ▸ hboth.slack_le u
    case changed =>
      exact fun u => (hboth.changed u).imp (fun heq => heq.trans (congrFun hslack0 u)) And.left
    case work_mono =>
      intro u hu
      rcases eq_or_ne u v with rfl | hne
      · exact .inl rfl
      · exact .inr (hboth.work_mono (hwork0 ▸ Finset.mem_erase.mpr ⟨hne, hu⟩))
    case work_new =>
      intro u hu
      rcases hboth.work_new u hu with hold | hlow
      · rw [hwork0, Finset.mem_erase] at hold
        exact .inl hold.symm
      · exact .inr (hslack0 ▸ hlow)
    case settled =>
      rintro - u ⟨hchained, e, he, hscalar, hends⟩
      have hself : st.1.slack_time v = st.2 :=
        hboth.keeps_budget hb ((congrFun hslack0 v).trans hbudget0.symm)
      rw [hself]
      rcases hends with ⟨hv, rfl⟩ | ⟨rfl, hv⟩
      · have hmet : st.1.slack_time e.target = st1.2 :=
          hst ▸ meetEdges_equal (hst ▸ hb.trans hb1.symm)
            ((fdfg.mem_out_edges v e).mpr ⟨he, hv⟩) hscalar hchained
        exact hmet.trans (hb.trans hb1.symm).symm
      · have hmet : st1.1.slack_time e.source = st0.2 := hst1 ▸ meetEdges_equal (hst1 ▸ hb1)
          ((fdfg.mem_in_edges v e).mpr ⟨he, hv⟩) hscalar hchained
        exact hout.keeps_budget (hb.trans hb1.symm) (hmet.trans hb1.symm)
    case starting => exact fun hupd => (hboth.starting hupd).trans hstarting0
    case shared => exact fun P hP hs => (hshared P hP hs).2.1
    case inside => exact fun u hu => (hinside u hu).imp_right .inr

section Runs

variable {upd : Bool} {slack_time : V → T} {s s' : State V T}

theorem Invariant.run
    (hsymm : ∀ a b, info.may_be_chained_ops a b = info.may_be_chained_ops b a)
    (hinv : Invariant fdfg info slack_time s)
    (hrun : Relation.ReflTransGen (Turn fdfg info upd false false) s s') :
    Invariant fdfg info slack_time s' := by
  induction hrun with
  | refl => exact hinv
  | tail _ hturn ih =>
    obtain ⟨v, hv, rfl⟩ := hturn
    exact ih.visit hsymm hv (visit_spec fdfg info upd v _)

theorem Invariant.terminates (upd : Bool)
    (hsymm : ∀ a b, info.may_be_chained_ops a b = info.may_be_chained_ops b a)
    (hinv : Invariant fdfg info slack_time s) :
    Acc (fun s' s => Turn fdfg info upd false false s s') s := by
  induction hr : remaining fdfg slack_time s using WellFoundedLT.induction generalizing s with
  | ind r ih =>
    refine .intro s fun s' hturn => ?_
    obtain ⟨v, hv, rfl⟩ := hturn
    have hvisited := visit_spec fdfg info upd v s
    have hinv' := hinv.visit hsymm hv hvisited
    exact ih _ (hr ▸ hvisited.remaining_lt hinv' hv) hinv' rfl

theorem starting_of_run
    (hrun : Relation.ReflTransGen (Turn fdfg info false false false) s s') :
    s'.starting_time = s.starting_time := by
  induction hrun with
  | refl => rfl
  | tail _ hturn ih =>
    obtain ⟨v, -, rfl⟩ := hturn
    exact ((visit_spec fdfg info false v _).starting rfl).trans ih

/-- A loop whose runs all end has one that ends with an empty work set. -/
theorem exists_end (hacc : Acc (fun s' s => Turn fdfg info upd false false s s') s) :
    ∃ s', Relation.ReflTransGen (Turn fdfg info upd false false) s s' ∧
      s'.sorted_vertices = ∅ := by
  induction hacc with
  | intro s _ ih =>
    rcases s.sorted_vertices.eq_empty_or_nonempty with hdone | ⟨v, hv⟩
    · exact ⟨s, .refl, hdone⟩
    · obtain ⟨s', hrun, hdone⟩ := ih _ ⟨v, hv, rfl⟩
      exact ⟨s', .head ⟨v, hv, rfl⟩ hrun, hdone⟩

end Runs

/-- With all operations in the work set and in both directions, the loop ends in whatever order
the set is gone through, and it leaves each operation the least slack around it. -/
theorem update_slack_starting_time_spec
    (hsymm : ∀ a b, info.may_be_chained_ops a b = info.may_be_chained_ops b a)
    (update_starting_time : Bool) (slack_time starting_time : V → T) :
    let initial : State V T := ⟨slack_time, starting_time, fdfg.operations⟩
    Acc (fun s' s => Turn fdfg info update_starting_time false false s s') initial ∧
      (∃ s, Relation.ReflTransGen (Turn fdfg info update_starting_time false false) initial s ∧
        s.sorted_vertices = ∅) ∧
      ∀ s, Relation.ReflTransGen (Turn fdfg info update_starting_time false false) initial s →
        s.sorted_vertices = ∅ →
        (∀ v ∈ fdfg.operations, IsLeast (slacksAround fdfg info slack_time v) (s.slack_time v)) ∧
          (update_starting_time = false → s.starting_time = starting_time) := by
  intro initial
  have hinitial := Invariant.initial fdfg info slack_time starting_time
  have hacc := hinitial.terminates update_starting_time hsymm
  refine ⟨hacc, exists_end hacc, fun s hrun hdone => ⟨fun v hv => ?_, ?_⟩⟩
  · exact (hinitial.run hsymm hrun).isLeast hdone hv
  · rintro rfl
    exact starting_of_run hrun

/-- Two operations, with a scalar edge from the first to the second. -/
def pairGraph : OpGraph Bool where
  operations := {false, true}
  edges := [⟨false, true, dfgScaSelector⟩]
  in_edges v := [⟨false, true, dfgScaSelector⟩].filter fun e => e.target = v
  out_edges v := [⟨false, true, dfgScaSelector⟩].filter fun e => e.source = v
  mem_in_edges _ _ := by rw [List.mem_filter, decide_eq_true_iff]
  mem_out_edges _ _ := by rw [List.mem_filter, decide_eq_true_iff]
  source_mem := by simp
  target_mem := by simp

/-- The first operation with a slack of five, the second with three, always chained. -/
theorem update_slack_starting_time_pair :
    let info : ChainingInformation Bool Nat := ⟨fun _ _ => true, fun _ => 0⟩
    let slack_time : Bool → Nat := fun v => if v then 3 else 5
    let initial : State Bool Nat := ⟨slack_time, fun _ => 0, {false, true}⟩
    Acc (fun s' s => Turn pairGraph info false false false s s') initial ∧
      (∃ s, Relation.ReflTransGen (Turn pairGraph info false false false) initial s ∧
        s.sorted_vertices = ∅) ∧
      ∀ s, Relation.ReflTransGen (Turn pairGraph info false false false) initial s →
        s.sorted_vertices = ∅ →
        (∀ v ∈ pairGraph.operations,
          IsLeast (slacksAround pairGraph info slack_time v) (s.slack_time v)) ∧
          (false = false → s.starting_time = fun _ => 0) :=
  update_slack_starting_time_spec (fun _ _ => rfl) false _ _

end Loop

end SlackPropagation
end HLS
end Bambu
