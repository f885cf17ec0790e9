/-
  Bambu.Algorithms.CliqueCovering.GraphCovering

  `coloring_based_clique_covering` and the solvers derived from it: the cliques are a partition of
  the vertices, and two vertices of a clique have been joined by an edge.

  The weighted covering goes down from the edges of the largest weight, and merges representatives
  only.  An edge between two of them stands for edges between all that they represent.
-/

import Bambu.Math.Numbering
import Bambu.Algorithms.CliqueCovering.Pruning
import Bambu.Algorithms.CliqueCovering.SeedSolver
import Mathlib.Data.Finset.Option

namespace Bambu
namespace CliqueCovering
namespace GraphCovering

open Bambu.Math
open Bambu.Math.DisjointSets (Merges)

variable {vertex_type : Type}

def COMPATIBILITY_ALL_EDGES : Nat := 2 ^ 32 - 1

/-! ## The levels -/

section Levels

variable (S : Setting vertex_type) (solve : Solver vertex_type)

/-- Only representatives with an edge stay in the support. -/
def keepRepresentatives (ds : DisjointSets C_vertex) (CG : CompatibilityGraph) :
    CompatibilityGraph :=
  (S.order CG.support).foldl (fun CG cur =>
    if ds.find_set cur ≠ cur ∨ CG.out_degree (ds.find_set cur) = 0 then
      { CG with support := CG.support.erase cur }
    else CG) CG

/-- One level: the vertices of the filtered graph are merged, and the edges that no longer stand
for all that their ends represent are removed. -/
def coverLevel (selector : Nat) (CG : CompatibilityGraph) (ds : DisjointSets C_vertex) :
    Except Error (CompatibilityGraph × DisjointSets C_vertex) :=
  (solve S { CG with mask := selector } ds).bind fun r =>
    let completeCG := { r.1 with mask := COMPATIBILITY_ALL_EDGES }
    (prune (build_partitions completeCG.support r.2) (active completeCG + 1) completeCG).map
      fun completeCG => (keepRepresentatives S r.2 completeCG, r.2)

/-- The loop over the levels, down to one. -/
def coverLevels : Nat → Nat → CompatibilityGraph → DisjointSets C_vertex →
    Except Error (CompatibilityGraph × DisjointSets C_vertex)
  | 0, _, CG, ds => .ok (CG, ds)
  | cur_level + 1, selector, CG, ds => (coverLevel S solve selector CG ds).bind fun r =>
      coverLevels cur_level (selector ||| 1 <<< cur_level) r.1 r.2

/-- The disjoint sets that `exec` leaves. -/
def cover (all_edges : Bool) (max_level : Nat) (completeCG : CompatibilityGraph) :
    Except Error (DisjointSets C_vertex) :=
  if all_edges then (solve S completeCG DisjointSets.init).map fun r => r.2
  else (coverLevels S solve max_level (1 <<< max_level) completeCG DisjointSets.init).map
    fun r => r.2

end Levels

/-! ## The class -/

structure State (vertex_type : Type) where
  edges : List Edge
  selector : Nat → Nat
  cliques : List (Finset C_vertex)
  v2uv : vertex_type → Option C_vertex
  uv2v : C_vertex → Option vertex_type
  max_level : Nat
  all_edges : Bool
  vindex : Nat
  /-- The vertices that the bulk graph is built with. -/
  nvert : Nat

namespace State

variable [DecidableEq vertex_type]

def init (_all_edges : Bool) (nvert : Nat) : State vertex_type where
  edges := []
  selector := fun _ => 0
  cliques := []
  v2uv := fun _ => none
  uv2v := fun _ => none
  max_level := 0
  all_edges := _all_edges
  vindex := 0
  nvert := nvert

def add_vertex (element : vertex_type) (st : State vertex_type) :
    Except Error (State vertex_type) :=
  (throwAssert (st.v2uv element = none) "vertex already added").map fun _ =>
    { st with
      v2uv := Function.update st.v2uv element (some st.vindex)
      vindex := st.vindex + 1
      uv2v := Function.update st.uv2v st.vindex (some element) }

def add_edge (src dest : vertex_type) (_weight : Int) (st : State vertex_type) :
    Except Error (State vertex_type) :=
  (throwAssert (src ≠ dest) "autoloops are not allowed in a compatibility graph").bind fun _ =>
    match st.v2uv src, st.v2uv dest with
    | none, _ => .error (.assertion "src not added")
    | some _, none => .error (.assertion "dest not added")
    | some SRC, some DEST => (throwAssert (0 < _weight ∧ _weight < 32)
        ("weights from 1 to 31 are allowed " ++ toString _weight)).map fun _ =>
          { st with
            max_level := max st.max_level _weight.toNat
            edges := st.edges ++ [⟨st.edges.length, SRC, DEST, _weight.toNat⟩]
            selector := Function.update st.selector st.edges.length (1 <<< _weight.toNat) }

/-- The whole graph. -/
def completeCG (st : State vertex_type) : CompatibilityGraph where
  edges := st.edges
  mask := COMPATIBILITY_ALL_EDGES
  selector := st.selector
  support := Finset.range st.nvert

/-- `exec`, with the vertices and their map as the solvers read them.  The partitions of all
vertices are the cliques. -/
def exec (S : Setting vertex_type) (solve : Solver vertex_type) (st : State vertex_type) :
    Except Error (State vertex_type) :=
  let S := { S with all_vertices := Finset.range st.nvert, uv2v := st.uv2v }
  (cover S solve st.all_edges st.max_level st.completeCG).map fun ds =>
    { st with
      cliques := st.cliques ++ (build_partitions (Finset.range st.nvert) ds).map
        fun p => insert p.1 p.2 }

def num_vertices (st : State vertex_type) : Nat := st.cliques.length

def get_clique (st : State vertex_type) (i : Nat) : Except Error (Finset vertex_type) :=
  match st.cliques[i]? with
  | none => .error (.unreachable "index")
  | some cur_clique => (throwAssert (∀ v ∈ cur_clique, st.uv2v v ≠ none) "vertex not added").map
      fun _ => cur_clique.biUnion fun v => (st.uv2v v).toFinset

end State

/-- A call before `exec`; the other ones do nothing. -/
inductive Call (vertex_type : Type) where
  | add_vertex (element : vertex_type)
  | add_edge (src dest : vertex_type) (_weight : Int)

def Call.run [DecidableEq vertex_type] (st : State vertex_type) :
    Call vertex_type → Except Error (State vertex_type)
  | add_vertex element => st.add_vertex element
  | add_edge src dest _weight => st.add_edge src dest _weight

/-- `clique_covering<VertexType>::create_solver`, without the bipartite matching. -/
inductive Algorithm where
  | COLORING
  | WEIGHTED_COLORING
  | TTT_CLIQUE_COVERING
  | TTT_CLIQUE_COVERING2
  | TTT_CLIQUE_COVERING_FAST
  | TTT_CLIQUE_COVERING_FAST2
  | TS_CLIQUE_COVERING
  | TS_WEIGHTED_CLIQUE_COVERING

namespace Algorithm

/-- Whether the solver covers all edges at once. -/
def all_edges : Algorithm → Bool
  | COLORING | TTT_CLIQUE_COVERING | TTT_CLIQUE_COVERING_FAST | TS_CLIQUE_COVERING => true
  | WEIGHTED_COLORING | TTT_CLIQUE_COVERING2 | TTT_CLIQUE_COVERING_FAST2
  | TS_WEIGHTED_CLIQUE_COVERING => false

def solver : Algorithm → Solver vertex_type
  | COLORING | WEIGHTED_COLORING => Coloring.do_clique_covering
  | TTT_CLIQUE_COVERING | TTT_CLIQUE_COVERING2 => TTT_based_clique_covering
  | TTT_CLIQUE_COVERING_FAST | TTT_CLIQUE_COVERING_FAST2 => TTT_based_clique_covering_fast
  | TS_CLIQUE_COVERING | TS_WEIGHTED_CLIQUE_COVERING => TS_based_clique_covering

theorem solver_correct (a : Algorithm) : (a.solver : Solver vertex_type).Correct := by
  cases a with
  | COLORING | WEIGHTED_COLORING => exact Coloring.do_clique_covering_correct
  | TTT_CLIQUE_COVERING | TTT_CLIQUE_COVERING2 => exact TTT_based_clique_covering_correct
  | TTT_CLIQUE_COVERING_FAST | TTT_CLIQUE_COVERING_FAST2 =>
    exact TTT_based_clique_covering_fast_correct
  | TS_CLIQUE_COVERING | TS_WEIGHTED_CLIQUE_COVERING => exact TS.do_clique_covering_correct

end Algorithm

/-! ## Levels keep the groups joined -/

section Level

variable {S : Setting vertex_type} {solve : Solver vertex_type} {G CG : CompatibilityGraph}
  {ds : DisjointSets C_vertex}

/-- What the original graph promises. -/
structure Original (G : CompatibilityGraph) : Prop where
  loopless : G.Loopless
  distinct : Distinct G
  mask : G.mask = COMPATIBILITY_ALL_EDGES
  selector_lt : ∀ i, G.selector i < 2 ^ 32

/-- Between two levels: the members of one group are joined, and an edge between two
representatives stands for edges between all members of their groups. -/
structure Level (G CG : CompatibilityGraph) (ds : DisjointSets C_vertex) : Prop where
  edges : CG.edges = G.edges
  mask : CG.mask = G.mask
  selector : ∀ i, CG.selector i = G.selector i ∨ CG.selector i = 0
  subset : CG.support ⊆ G.support
  flat : ds.Flat
  root : ∀ s ∈ CG.support, ds.find_set s = s
  mem : ∀ v ∈ G.support, ds.find_set v ∈ G.support
  group : ∀ a b, ds.Same a b → a = b ∨ G.Adj a b
  cross : ∀ a b, ds.find_set a ∈ CG.support → ds.find_set b ∈ CG.support →
    CG.Adj (ds.find_set a) (ds.find_set b) → G.Adj a b

theorem level_init (G : CompatibilityGraph) : Level G G DisjointSets.init where
  edges := rfl
  mask := rfl
  selector := fun _ => Or.inl rfl
  subset := Finset.Subset.refl _
  flat := DisjointSets.Flat.init
  root := fun _ _ => rfl
  mem := fun _ => id
  group := fun _ _ => Or.inl
  cross := fun _ _ _ _ => id

theorem keepRepresentatives_spec (S : Setting vertex_type) (ds : DisjointSets C_vertex)
    (CG : CompatibilityGraph) : ∃ support ⊆ CG.support,
      keepRepresentatives S ds CG = { CG with support := support } ∧
        ∀ v ∈ support, ds.find_set v = v := by
  have hloop : ∀ (l : List C_vertex) (CG : CompatibilityGraph), ∃ support ⊆ CG.support,
      l.foldl (fun CG cur =>
        if ds.find_set cur ≠ cur ∨ CG.out_degree (ds.find_set cur) = 0 then
          { CG with support := CG.support.erase cur }
        else CG) CG = { CG with support := support } ∧
          ∀ v ∈ l, v ∈ support → ds.find_set v = v := by
    intro l
    induction l with
    | nil => exact fun CG => ⟨CG.support, Finset.Subset.refl _, rfl, fun v hv => by cases hv⟩
    | cons cur l ih =>
      intro CG
      rw [List.foldl_cons]
      split
      · obtain ⟨support, hsub, heq, hroot⟩ := ih { CG with support := CG.support.erase cur }
        refine ⟨support, hsub.trans (Finset.erase_subset cur CG.support), heq, fun v hv hmem => ?_⟩
        obtain rfl | hv := List.mem_cons.mp hv
        · exact absurd rfl (Finset.mem_erase.mp (hsub hmem)).1
        · exact hroot v hv hmem
      case isFalse hkeep =>
        obtain ⟨support, hsub, heq, hroot⟩ := ih CG
        refine ⟨support, hsub, heq, fun v hv hmem => ?_⟩
        obtain rfl | hv := List.mem_cons.mp hv
        · exact not_not.mp fun hne => hkeep (Or.inl hne)
        · exact hroot v hv hmem
  obtain ⟨support, hsub, heq, hroot⟩ := hloop (S.order CG.support) CG
  exact ⟨support, hsub, heq, fun v hv => hroot v ((S.mem_order _ v).mpr (hsub hv)) hv⟩

/-- An edge that passes any filter is one of the complete graph. -/
theorem Level.adj_of_mask (h : Level G CG ds) (hG : Original G) {selector x y : Nat}
    (hadj : ({ CG with mask := selector } : CompatibilityGraph).Adj x y) : CG.Adj x y := by
  obtain ⟨e, he, hjoins, hsel⟩ := hadj
  refine ⟨e, he, hjoins, ?_⟩
  have hne : CG.selector e.id ≠ 0 := by
    intro hzero
    simp only [CompatibilityGraph.selected, hzero, Nat.and_zero] at hsel
    cases hsel
  have hlt : CG.selector e.id < 2 ^ 32 := by
    obtain heq | hzero := h.selector e.id
    · rw [heq]
      exact hG.selector_lt e.id
    · exact absurd hzero hne
  rw [CompatibilityGraph.selected, h.mask, hG.mask, COMPATIBILITY_ALL_EDGES, Nat.and_comm,
    Nat.and_two_pow_sub_one_eq_mod, Nat.mod_eq_of_lt hlt]
  exact bne_iff_ne.mpr hne

theorem coverLevel_meets (hsolve : solve.Correct) (hG : Original G) (h : Level G CG ds)
    (selector : Nat) : Meets S.fc.PicksMembers (coverLevel S solve selector CG ds)
      fun r => Level G r.1 r.2 := by
  have hloopless : CG.Loopless := by
    unfold CompatibilityGraph.Loopless
    rw [h.edges]
    exact hG.loopless
  have hdistinct : Distinct CG := by
    unfold Distinct
    rw [h.edges]
    exact hG.distinct
  refine (hsolve S { CG with mask := selector } ds ⟨h.flat, h.root, hloopless⟩).bind
    fun r hr => ?_
  obtain ⟨CG', ds'⟩ := r
  obtain ⟨hgraph, hmasked⟩ := hr
  have hmerges : Merges CG.Adj CG.support ds ds' :=
    hmasked.mono fun s _ t _ _ hst => h.adj_of_mask hG hst
  obtain rfl : CG' = { CG with mask := selector } := hgraph
  have hcomplete : ({ CG with mask := COMPATIBILITY_ALL_EDGES } : CompatibilityGraph) = CG := by
    rw [← hG.mask, ← h.mask]
  simp only [hcomplete]
  obtain ⟨CG₁, CG₂, hrun, hpruned, hquiet⟩ := prune_spec (build_partitions CG.support ds')
    (active CG + 1) CG hdistinct (Nat.lt_succ_self _)
  rw [hrun]
  refine Meets.ok ?_
  have hpruned₂ := hquiet.pruned (hpruned.distinct hdistinct)
  have hboth := hpruned.trans hpruned₂
  obtain ⟨support, hsub, hkeep, hroot⟩ := keepRepresentatives_spec S ds' CG₂
  show Level G (keepRepresentatives S ds' CG₂) ds'
  rw [hkeep]
  have hsupport : ∀ {v}, v ∈ support → v ∈ CG.support := fun hv => hboth.support ▸ hsub hv
  refine ⟨hboth.edges.trans h.edges, hboth.mask.trans h.mask, fun i => ?_,
    fun v hv => h.subset (hsupport hv), hmerges.flat, hroot, fun v hv => ?_, fun a b hab => ?_,
    fun a b ha hb hab => ?_⟩
  · obtain heq | hzero := hboth.selector i
    · exact (h.selector i).imp heq.trans heq.trans
    · exact Or.inr hzero
  · by_cases hmem : ds.find_set v ∈ CG.support
    · rw [hmerges.factor]
      exact h.subset (hmerges.mem _ hmem)
    · rw [hmerges.keep v hmem]
      exact h.mem v hv
  · obtain hold | ⟨ha, hb, hadj⟩ := hmerges.same_cases h.flat hab
    · exact h.group a b hold
    · exact Or.inr (h.cross a b ha hb hadj)
  · -- The edge that is left stands for one between the representatives of the level before.
    have hfa := hmerges.find_mem (hsupport ha)
    have hfb := hmerges.find_mem (hsupport hb)
    refine h.cross a b hfa hfb (hpruned.adj ?_)
    refine Quiet.represents (by rw [hpruned.support]; exact hquiet)
      (hpruned.distinct hdistinct) hmerges.flat
      (by rw [hpruned.support]; exact hmerges.mem) (hpruned.support ▸ hfa) (hpruned.support ▸ hfb)
      (fun hsame => ?_) ?_
    · have hloop := CompatibilityGraph.Adj.ne hloopless (hboth.adj hab)
      rw [hmerges.factor a, hmerges.factor b] at hloop
      exact hloop hsame
    · rw [← hmerges.factor, ← hmerges.factor]
      exact hab

theorem coverLevels_meets (hsolve : solve.Correct) (hG : Original G) (cur_level : Nat) :
    ∀ selector CG ds, Level G CG ds → Meets S.fc.PicksMembers
      (coverLevels S solve cur_level selector CG ds) fun r => Level G r.1 r.2 := by
  induction cur_level with
  | zero => exact fun _ _ _ h => Meets.ok h
  | succ cur_level ih =>
    exact fun selector CG ds h => (coverLevel_meets hsolve hG h selector).bind
      fun r hr => ih _ r.1 r.2 hr

/-- What is covered is a partition into joined groups. -/
structure Grouped (G : CompatibilityGraph) (ds : DisjointSets C_vertex) : Prop where
  flat : ds.Flat
  mem : ∀ v ∈ G.support, ds.find_set v ∈ G.support
  group : ∀ a b, ds.Same a b → a = b ∨ G.Adj a b

theorem cover_meets (hsolve : solve.Correct) (hG : Original G) (all_edges : Bool)
    (max_level : Nat) :
    Meets S.fc.PicksMembers (cover S solve all_edges max_level G) (Grouped G) := by
  unfold cover
  cases all_edges with
  | true =>
    have hinit := level_init G
    refine (hsolve S G _ ⟨hinit.flat, hinit.root, hG.loopless⟩).map fun r hr => ?_
    refine ⟨hr.merges.flat, hr.merges.mem, fun a b hab => ?_⟩
    exact (hr.merges.same_cases hinit.flat hab).imp_right fun h => h.2.2
  | false =>
    exact (coverLevels_meets hsolve hG max_level _ G _ (level_init G)).map
      fun r hr => ⟨hr.flat, hr.mem, hr.group⟩

end Level

/-! ## What the calls leave -/

/-- The vertices are numbered, and the edges are those asked for. -/
structure Valid (nvert : Nat) (calls : List (Call vertex_type)) (st : State vertex_type) :
    Prop where
  cliques : st.cliques = []
  nvert : st.nvert = nvert
  v2uv_iff : ∀ v C, st.v2uv v = some C ↔ st.uv2v C = some v
  numbered : ∀ C, C < st.vindex ↔ ∃ v, st.uv2v C = some v
  added : ∀ v, Call.add_vertex v ∈ calls ↔ ∃ C, st.v2uv v = some C
  loopless : ∀ e ∈ st.edges, e.source ≠ e.target
  id_lt : ∀ e ∈ st.edges, e.id < st.edges.length
  distinct : ∀ e ∈ st.edges, ∀ e' ∈ st.edges, e.id = e'.id → e = e'
  selector_lt : ∀ i, st.selector i < 2 ^ 32
  joined : ∀ e ∈ st.edges, ∃ v w _weight, Call.add_edge v w _weight ∈ calls ∧
    st.v2uv v = some e.source ∧ st.v2uv w = some e.target

section Calls

variable {nvert : Nat} {calls : List (Call vertex_type)} {st st' : State vertex_type}

theorem valid_init (all_edges : Bool) (nvert : Nat) :
    Valid nvert ([] : List (Call vertex_type)) (State.init all_edges nvert) where
  cliques := rfl
  nvert := rfl
  v2uv_iff v C := by simp [State.init]
  numbered C := by simp [State.init]
  added v := by simp [State.init]
  loopless e he := absurd he List.not_mem_nil
  id_lt e he := absurd he List.not_mem_nil
  distinct e he := absurd he List.not_mem_nil
  selector_lt i := Nat.two_pow_pos 32
  joined e he := absurd he List.not_mem_nil

variable [DecidableEq vertex_type]

omit [DecidableEq vertex_type] in
theorem Valid.numbering (h : Valid nvert calls st) : Numbering st.v2uv st.uv2v st.vindex :=
  ⟨h.v2uv_iff, h.numbered⟩

theorem Valid.add_vertex (h : Valid nvert calls st) {element : vertex_type}
    (hrun : st.add_vertex element = .ok st') : Valid nvert (calls ++ [.add_vertex element]) st' := by
  obtain ⟨hfresh, hst'⟩ := throwAssert_bind_ok (f := fun _ => Except.ok _) hrun
  cases hst'
  have hnum := h.numbering.add hfresh
  refine ⟨h.cliques, h.nvert, hnum.iff, hnum.lt_iff, fun v => ?_, h.loopless, h.id_lt,
    h.distinct, h.selector_lt, fun e he => ?_⟩
  · show _ ↔ ∃ C, Function.update st.v2uv element (some st.vindex) v = some C
    rw [List.mem_append, h.added, List.mem_singleton]
    by_cases hv : v = element
    · rw [hv, Function.update_self]
      exact iff_of_true (Or.inr rfl) ⟨_, rfl⟩
    · rw [Function.update_of_ne hv]
      exact or_iff_left fun heq => hv (Call.add_vertex.inj heq)
  · obtain ⟨v, w, _weight, hcall, hv, hw⟩ := h.joined e he
    exact ⟨v, w, _weight, List.mem_append_left _ hcall, Numbering.update_of_some hfresh hv _,
      Numbering.update_of_some hfresh hw _⟩

theorem Valid.add_edge (h : Valid nvert calls st) {src dest : vertex_type} {_weight : Int}
    (hrun : st.add_edge src dest _weight = .ok st') :
    Valid nvert (calls ++ [.add_edge src dest _weight]) st' := by
  obtain ⟨hloop, hrun⟩ := throwAssert_bind_ok hrun
  split at hrun
  · cases hrun
  · cases hrun
  case h_3 SRC DEST hsrc hdest =>
    obtain ⟨⟨hpos, hlt⟩, hst'⟩ := throwAssert_bind_ok (f := fun _ => Except.ok _) hrun
    cases hst'
    have hne : SRC ≠ DEST := by
      rintro rfl
      have heq := ((h.v2uv_iff src SRC).mp hsrc).symm.trans ((h.v2uv_iff dest SRC).mp hdest)
      exact hloop (Option.some.inj heq)
    have hcases : ∀ {e : Edge},
        e ∈ st.edges ++ [⟨st.edges.length, SRC, DEST, _weight.toNat⟩] →
          e ∈ st.edges ∨ e = ⟨st.edges.length, SRC, DEST, _weight.toNat⟩ := by
      intro e he
      exact (List.mem_append.mp he).imp_right List.mem_singleton.mp
    have hlength : (st.edges ++ [(⟨st.edges.length, SRC, DEST, _weight.toNat⟩ : Edge)]).length =
        st.edges.length + 1 := by rw [List.length_append, List.length_singleton]
    refine ⟨h.cliques, h.nvert, h.v2uv_iff, h.numbered, fun v => ?_, fun e he => ?_,
      fun e he => ?_, fun e he e' he' hid => ?_, fun i => ?_, fun e he => ?_⟩
    · rw [List.mem_append, h.added]
      refine or_iff_left fun hmem => ?_
      cases List.mem_singleton.mp hmem
    · obtain he | rfl := hcases he
      · exact h.loopless e he
      · exact hne
    · show e.id < (st.edges ++ _).length
      rw [hlength]
      obtain he | rfl := hcases he
      · exact (h.id_lt e he).trans (Nat.lt_succ_self _)
      · exact Nat.lt_succ_self _
    · obtain he | rfl := hcases he <;> obtain he' | rfl := hcases he'
      · exact h.distinct e he e' he' hid
      · exact absurd hid (h.id_lt e he).ne
      · exact absurd hid.symm (h.id_lt e' he').ne
      · rfl
    · show Function.update st.selector st.edges.length (1 <<< _weight.toNat) i < 2 ^ 32
      by_cases hi : i = st.edges.length
      · rw [hi, Function.update_self, Nat.one_shiftLeft]
        exact Nat.pow_lt_pow_right (by decide) (by omega)
      · rw [Function.update_of_ne hi]
        exact h.selector_lt i
    · obtain he | rfl := hcases he
      · obtain ⟨v, w, _weight, hcall, hv, hw⟩ := h.joined e he
        exact ⟨v, w, _weight, List.mem_append_left _ hcall, hv, hw⟩
      · exact ⟨src, dest, _weight, List.mem_append_right _ (List.mem_singleton.mpr rfl), hsrc,
          hdest⟩

theorem valid_of_run {all_edges : Bool}
    (hrun : calls.foldlM Call.run (State.init all_edges nvert) = .ok st) :
    Valid nvert calls st := by
  have hloop : ∀ (rest done : List (Call vertex_type)) (st₀ : State vertex_type),
      Valid nvert done st₀ → rest.foldlM Call.run st₀ = .ok st → Valid nvert (done ++ rest) st := by
    intro rest
    induction rest with
    | nil =>
      intro done st₀ h₀ hrun
      cases hrun
      rwa [List.append_nil]
    | cons call rest ih =>
      intro done st₀ h₀ hrun
      rw [List.foldlM_cons] at hrun
      obtain ⟨st₁, hcall, hrest⟩ := bind_ok hrun
      have h₁ : Valid nvert (done ++ [call]) st₁ := by
        cases call with
        | add_vertex element => exact h₀.add_vertex hcall
        | add_edge src dest _weight => exact h₀.add_edge hcall
      have h := ih (done ++ [call]) st₁ h₁ hrest
      rwa [List.append_assoc] at h
  exact hloop calls [] _ (valid_init all_edges nvert) hrun

omit [DecidableEq vertex_type] in
theorem Valid.original (h : Valid nvert calls st) : Original st.completeCG where
  loopless := h.loopless
  distinct := h.distinct
  mask := rfl
  selector_lt := h.selector_lt

end Calls

/-! ## The cliques -/

/-- The cliques by numbers are a partition into groups that are joined. -/
structure Cliques (G : CompatibilityGraph) (cliques : List (Finset C_vertex)) : Prop where
  nonempty : ∀ c ∈ cliques, c.Nonempty
  disjoint : cliques.Pairwise Disjoint
  mem_iff : ∀ C, (∃ c ∈ cliques, C ∈ c) ↔ C ∈ G.support
  joined : ∀ c ∈ cliques, G.Clique c

theorem Grouped.cliques {G : CompatibilityGraph} {ds : DisjointSets C_vertex}
    (h : Grouped G ds) :
    Cliques G ((build_partitions G.support ds).map fun p => insert p.1 p.2) := by
  have heq : ((build_partitions G.support ds).map fun p => insert p.1 p.2) =
      ((G.support.image ds.find_set).sort (· ≤ ·)).map fun rep =>
        G.support.filter fun cur => ds.find_set cur = rep := by
    rw [build_partitions, List.map_map]
    refine List.map_congr_left fun rep hrep => Finset.ext fun v => ?_
    obtain ⟨s, hs, rfl⟩ := Finset.mem_image.mp ((Finset.mem_sort _).mp hrep)
    simp only [Function.comp_apply, Finset.mem_insert, Finset.mem_filter]
    constructor
    · rintro (rfl | ⟨hv, hfind, -⟩)
      · exact ⟨h.mem s hs, h.flat s⟩
      · exact ⟨hv, hfind⟩
    · rintro ⟨hv, hfind⟩
      exact or_iff_not_imp_left.mpr fun hne => ⟨hv, hfind, hne⟩
  rw [heq]
  refine ⟨fun c hc => ?_, ?_, fun C => ?_, fun c hc u hu v hv hne => ?_⟩
  · obtain ⟨rep, hrep, rfl⟩ := List.mem_map.mp hc
    obtain ⟨s, hs, rfl⟩ := Finset.mem_image.mp ((Finset.mem_sort _).mp hrep)
    exact ⟨s, Finset.mem_filter.mpr ⟨hs, rfl⟩⟩
  · refine List.pairwise_map.mpr ((Finset.sort_nodup _ _).imp fun {rep rep'} hne => ?_)
    rw [Finset.disjoint_left]
    intro v hv hv'
    exact hne ((Finset.mem_filter.mp hv).2.symm.trans (Finset.mem_filter.mp hv').2)
  · constructor
    · rintro ⟨c, hc, hC⟩
      obtain ⟨rep, -, rfl⟩ := List.mem_map.mp hc
      exact (Finset.mem_filter.mp hC).1
    · intro hC
      have hrep := (Finset.mem_sort (· ≤ ·)).mpr (Finset.mem_image_of_mem ds.find_set hC)
      exact ⟨_, List.mem_map.mpr ⟨_, hrep, rfl⟩, Finset.mem_filter.mpr ⟨hC, rfl⟩⟩
  · obtain ⟨rep, -, rfl⟩ := List.mem_map.mp hc
    have hsame : ds.Same u v :=
      (Finset.mem_filter.mp hu).2.trans (Finset.mem_filter.mp hv).2.symm
    exact (h.group u v hsame).resolve_left hne

section Exec

variable [DecidableEq vertex_type] {nvert : Nat} {calls : List (Call vertex_type)}
  {st st' : State vertex_type}

omit [DecidableEq vertex_type] in
/-- `exec` leaves the rest of the state, and its cliques are joined. -/
theorem Valid.exec (h : Valid nvert calls st) (a : Algorithm) (S : Setting vertex_type) :
    Meets S.fc.PicksMembers (st.exec S a.solver) fun st' =>
      ∃ cliques, st' = { st with cliques := cliques } ∧ Cliques st.completeCG cliques := by
  obtain ⟨S', hS'⟩ : ∃ S' : Setting vertex_type,
      S' = { S with all_vertices := Finset.range st.nvert, uv2v := st.uv2v } := ⟨_, rfl⟩
  have hfc : S'.fc = S.fc := by rw [hS']
  rw [← hfc]
  simp only [State.exec, ← hS']
  refine (cover_meets a.solver_correct h.original st.all_edges st.max_level).map fun ds hds => ?_
  rw [h.cliques, List.nil_append]
  exact ⟨_, rfl, hds.cliques⟩

/-- The cliques in terms of the vertices that were added. -/
theorem Valid.readsBack (h : Valid nvert calls st) (hcount : st.vindex = nvert)
    {cliques : List (Finset C_vertex)} (hcliques : Cliques st.completeCG cliques) :
    ReadsBack (State.get_clique { st with cliques := cliques }) st.v2uv cliques := by
  refine ⟨fun {i clique} hi => ?_, fun {i c} hi => ?_⟩
  · have hknown : ∀ C ∈ clique, st.uv2v C ≠ none := by
      intro C hC
      have hmem := (hcliques.mem_iff C).mp ⟨clique, List.mem_of_getElem? hi, hC⟩
      have hlt : C < st.vindex := by
        rw [hcount, ← h.nvert]
        exact Finset.mem_range.mp hmem
      obtain ⟨v, hv⟩ := (h.numbered C).mp hlt
      rw [hv]
      rintro ⟨⟩
    refine ⟨clique.biUnion fun C => (st.uv2v C).toFinset, ?_, fun v => ?_⟩
    · unfold State.get_clique
      simp only [hi, throwAssert_of hknown]
      rfl
    · simp only [Finset.mem_biUnion, Option.mem_toFinset, Option.mem_def, h.v2uv_iff]
  · unfold State.get_clique
    simp only [hi]
    rintro ⟨⟩

end Exec

/-- With a graph built for the vertices that are added, `exec` ends for every filter that picks
members, and for every filter the cliques that it leaves are a partition of the vertices, in which
two vertices of one clique have been joined by an edge. -/
theorem exec_covers {vertex_type : Type} [DecidableEq vertex_type] (a : Algorithm)
    (S : Setting vertex_type) (nvert : Nat) (calls : List (Call vertex_type))
    (st : State vertex_type)
    (hrun : calls.foldlM Call.run (State.init a.all_edges nvert) = .ok st)
    (hcount : st.vindex = nvert) :
    (S.fc.PicksMembers → ∃ st', st.exec S a.solver = .ok st') ∧
    ∀ st', st.exec S a.solver = .ok st' →
      (∀ i < st'.num_vertices, ∃ c, st'.get_clique i = .ok c ∧ c.Nonempty) ∧
      (∀ i j c d, st'.get_clique i = .ok c → st'.get_clique j = .ok d → i ≠ j → Disjoint c d) ∧
      (∀ v, Call.add_vertex v ∈ calls ↔
        ∃ i < st'.num_vertices, ∃ c, st'.get_clique i = .ok c ∧ v ∈ c) ∧
      ∀ i c, st'.get_clique i = .ok c → ∀ v ∈ c, ∀ w ∈ c, v ≠ w →
        ∃ _weight, Call.add_edge v w _weight ∈ calls ∨ Call.add_edge w v _weight ∈ calls := by
  have h := valid_of_run hrun
  have hmeets := h.exec a S
  refine ⟨hmeets.returns, fun st' hexec => ?_⟩
  obtain ⟨cliques, hst', hcliques⟩ := hmeets.sound st' hexec
  have hnum : st'.num_vertices = cliques.length := by
    rw [hst']
    rfl
  have hread : ReadsBack st'.get_clique st.v2uv cliques := by
    rw [hst']
    exact h.readsBack hcount hcliques
  have hnumbered : ∀ C, C ∈ st.completeCG.support ↔ ∃ v, st.v2uv v = some C := by
    intro C
    simp only [h.v2uv_iff, ← h.numbered, hcount, ← h.nvert]
    exact Finset.mem_range
  refine ⟨fun i hi => ?_, fun i j c d hc hd hij => hread.disjoint hcliques.disjoint hc hd hij,
    fun v => ?_, fun i c hc v hv w hw hne => ?_⟩
  · rw [hnum] at hi
    obtain ⟨c, hc, hiff⟩ := hread.returns (List.getElem?_eq_getElem hi)
    obtain ⟨C, hC⟩ := hcliques.nonempty _ (List.getElem_mem hi)
    obtain ⟨v, hv⟩ := (hnumbered C).mp ((hcliques.mem_iff C).mp ⟨_, List.getElem_mem hi, hC⟩)
    exact ⟨c, hc, v, (hiff v).mpr ⟨C, hC, hv⟩⟩
  · rw [h.added]
    constructor
    · rintro ⟨C, hC⟩
      obtain ⟨clique, hclique, hmem⟩ := (hcliques.mem_iff C).mpr ((hnumbered C).mpr ⟨v, hC⟩)
      obtain ⟨i, hi, rfl⟩ := List.getElem_of_mem hclique
      obtain ⟨c, hc, hiff⟩ := hread.returns (List.getElem?_eq_getElem hi)
      exact ⟨i, hnum ▸ hi, c, hc, (hiff v).mpr ⟨C, hmem, hC⟩⟩
    · rintro ⟨i, -, c, hc, hv⟩
      obtain ⟨clique, -, hiff⟩ := hread.got hc
      obtain ⟨C, -, hC⟩ := (hiff v).mp hv
      exact ⟨C, hC⟩
  · obtain ⟨clique, hi, hiff⟩ := hread.got hc
    obtain ⟨C, hC, hvC⟩ := (hiff v).mp hv
    obtain ⟨D, hD, hwD⟩ := (hiff w).mp hw
    have hCD : C ≠ D := by
      rintro rfl
      exact hne (h.numbering.unique hvC hwD)
    obtain ⟨e, he, hjoins, -⟩ := hcliques.joined clique (List.mem_of_getElem? hi) C hC D hD hCD
    obtain ⟨x, y, _weight, hcall, hx, hy⟩ := h.joined e he
    obtain ⟨rfl, rfl⟩ | ⟨rfl, rfl⟩ := hjoins
    · rw [h.numbering.unique hvC hx, h.numbering.unique hwD hy]
      exact ⟨_weight, Or.inl hcall⟩
    · rw [h.numbering.unique hvC hy, h.numbering.unique hwD hx]
      exact ⟨_weight, Or.inr hcall⟩

/-- A path of three vertices. -/
def pathCalls : List (Call Char) :=
  [.add_vertex 'a', .add_vertex 'b', .add_vertex 'c', .add_edge 'a' 'b' 2, .add_edge 'b' 'c' 1]

def pathSetting : Setting Char where
  all_vertices := ∅
  uv2v := fun _ => none
  fc := ⟨fun _ _ _ => none, false⟩
  order := fun s => s.sort (· ≤ ·)
  mem_order := fun _ _ => Finset.mem_sort _
  make_heap := fun _ l => l
  make_heap_perm := fun _ l => List.Perm.refl l

theorem exec_covers_path : ∃ st st',
    pathCalls.foldlM Call.run (State.init Algorithm.WEIGHTED_COLORING.all_edges 3) = .ok st ∧
      st.exec pathSetting Algorithm.WEIGHTED_COLORING.solver = .ok st' ∧
      ∀ i c, st'.get_clique i = .ok c → ¬ ('a' ∈ c ∧ 'c' ∈ c) := by
  obtain ⟨hreturns, hsound⟩ :=
    exec_covers .WEIGHTED_COLORING pathSetting 3 pathCalls _ rfl rfl
  obtain ⟨st', hexec⟩ := hreturns (by rintro _ _ _ _ ⟨⟩)
  obtain ⟨-, -, -, hjoined⟩ := hsound st' hexec
  refine ⟨_, st', rfl, hexec, fun i c hc h => ?_⟩
  obtain ⟨_weight, hcall⟩ := hjoined i c hc 'a' h.1 'c' h.2 (by decide)
  simp [pathCalls] at hcall

end GraphCovering
end CliqueCovering
end Bambu
