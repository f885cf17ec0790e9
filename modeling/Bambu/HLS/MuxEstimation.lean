/-
  Bambu.HLS.MuxEstimation

  `estimate_muxes` of the module binding, and the costs that the filter of the cliques takes from
  it: `slack_based_filtering::clique_cost` and `sharing_cost`.
-/

import Bambu.Algorithms.CliqueCovering.CompatibilityGraph
import Mathlib.Algebra.Order.BigOperators.Group.Finset
import Mathlib.Data.Finset.Sort
import Mathlib.Data.List.GetD
import Mathlib.Order.Lattice.Nat

namespace Bambu
namespace HLS
namespace MuxEstimation

open CliqueCovering (C_vertex)

/-! ## The model -/

/-- How the value that a port reads comes about. -/
inductive ConnCode
  | no_def
  | no_phi_chained
  | no_phi_no_chained
  | phi
  deriving DecidableEq, Repr

/-- What an operation reads at each port: the code, the variable or storage value, and the
operation that defines it. -/
abbrev ConnectionRelation (Op : Type) := Op → List (List (ConnCode × Nat × Op))

/-- What is bound so far; `get_index` is none where the unit's index is `INFINITE_UINT`. -/
structure BindingState (Op : Type) where
  has_register_done : Bool
  get_register : Nat → Nat
  get_index : Op → Option Nat
  get_assign : Op → Nat
  get_ports_are_swapped : Op → Bool

/-- `regs_in`, `chained_in`, `module_in` and `module_in_reg` at one port. -/
structure PortInputs where
  regs_in : Finset Nat
  chained_in : Finset Nat
  module_in : Finset (Nat × Nat)
  module_in_reg : Finset (Nat × Nat)

def PortInputs.empty : PortInputs := ⟨∅, ∅, ∅, ∅⟩

/-- The cost figures, as `estimate_muxes` leaves them in its reference parameters. -/
structure MuxEstimate (R : Type) where
  tot_mux_delay : R
  tot_mux_area : R
  total_muxes : Nat
  n_shared : Nat

/-- The estimates that the allocation gives for a multiplexer of a precision and a number of
inputs. -/
structure AllocationInformation (R : Type) where
  estimate_muxNto1_area : Nat → Nat → R
  estimate_muxNto1_delay : Nat → Nat → R

section Model

variable {Op R : Type} (fu : BindingState Op) (con_rel : ConnectionRelation Op)

/-- The branch of a value that is read from a register. -/
def insertStored (storage_value : Nat) (def_op : Op) (s : PortInputs) : PortInputs :=
  if fu.has_register_done then
    { s with regs_in := insert (fu.get_register storage_value) s.regs_in }
  else
    match fu.get_index def_op with
    | some index =>
      { s with module_in_reg := insert (fu.get_assign def_op, index) s.module_in_reg }
    | none => { s with regs_in := insert storage_value s.regs_in }

/-- The cases of a triple of the connection relation. -/
def insertTriple (s : PortInputs) : ConnCode × Nat × Op → PortInputs
  | (.no_def, ir_var, _) => { s with chained_in := insert ir_var s.chained_in }
  | (.no_phi_chained, ir_var, def_op) =>
    match fu.get_index def_op with
    | some index => { s with module_in := insert (fu.get_assign def_op, index) s.module_in }
    | none => { s with chained_in := insert ir_var s.chained_in }
  | (.no_phi_no_chained, storage_value, def_op) => insertStored fu storage_value def_op s
  | (.phi, storage_value, def_op) => insertStored fu storage_value def_op s

/-- The port of the unit that a port of the operation is connected to. -/
def portIndex (v : Op) (port_index_actual : Nat) : Nat :=
  if fu.get_ports_are_swapped v then (if port_index_actual = 0 then 1 else 0)
  else port_index_actual

/-- The loop over the ports of an operation. -/
def scanPorts (v : Op) : List (List (ConnCode × Nat × Op)) → Nat → List PortInputs →
    List PortInputs
  | [], _, ports => ports
  | triples :: rest, actual, ports =>
    scanPorts v rest (actual + 1)
      (ports.modify (portIndex fu v actual) fun s => triples.foldl (insertTriple fu) s)

/-- The loop over the outgoing data edges of an operation, on `module_out` and `n_tot_shared`. -/
def scanTargets (out : Finset (Nat × Nat) × Nat) (tgt : Op) : Finset (Nat × Nat) × Nat :=
  match fu.get_index tgt with
  | some index =>
    if (fu.get_assign tgt, index) ∈ out.1 then (out.1, out.2 + 1)
    else (insert (fu.get_assign tgt, index) out.1, out.2)
  | none => out

/-- `max_port_index` -/
def maxPortIndex (converter : C_vertex → Op) (cluster : List C_vertex) : Nat :=
  cluster.foldl (fun m cv => max m (con_rel (converter cv)).length) 0

/-- The inputs that the operations of a cluster collect at the ports. -/
def collectInputs (converter : C_vertex → Op) (cluster : List C_vertex) : List PortInputs :=
  cluster.foldl (fun ports cv => scanPorts fu (converter cv) (con_rel (converter cv)) 0 ports)
    (List.replicate (maxPortIndex con_rel converter cluster) .empty)

def PortInputs.current_muxs (s : PortInputs) : Nat :=
  s.regs_in.card + s.chained_in.card + s.module_in.card + s.module_in_reg.card

variable [Zero R] [Add R] [Max R]

/-- The loop that sums up the multiplexers of the ports. -/
def addPort (do_estimation : Bool) (allocation : AllocationInformation R) (mux_prec : Nat)
    (e : MuxEstimate R) (s : PortInputs) : MuxEstimate R where
  total_muxes := if s.current_muxs > 1 then e.total_muxes + (s.current_muxs - 1) else e.total_muxes
  tot_mux_area :=
    if do_estimation then
      e.tot_mux_area + allocation.estimate_muxNto1_area mux_prec s.current_muxs
    else e.tot_mux_area
  tot_mux_delay :=
    if do_estimation then
      max e.tot_mux_delay (allocation.estimate_muxNto1_delay mux_prec s.current_muxs)
    else e.tot_mux_delay
  n_shared := e.n_shared

/-- `data_targets` are the targets of the outgoing data edges of an operation. -/
def estimate_muxes (do_estimation : Bool) (allocation : AllocationInformation R) (mux_prec : Nat)
    (data_targets : Op → List Op) (cluster : List C_vertex) (converter : C_vertex → Op) :
    MuxEstimate R :=
  let out := cluster.foldl (fun out cv => (data_targets (converter cv)).foldl (scanTargets fu) out)
    (∅, 0)
  (collectInputs fu con_rel converter cluster).foldl (addPort do_estimation allocation mux_prec)
    ⟨0, 0, 0, out.2⟩

variable (allocation : AllocationInformation R) (mux_prec : Nat) (data_targets : Op → List Op)

/-- `slack_based_filtering::clique_cost`; an ordered set is gone through in ascending order. -/
def clique_cost (candidate_clique : Finset C_vertex) (converter : C_vertex → Op) : Nat :=
  (estimate_muxes fu con_rel false allocation mux_prec data_targets
    (candidate_clique.sort (· ≤ ·)) converter).total_muxes

/-- The elements from one iterator up to another. -/
def between (elements : List C_vertex) (first last : Nat) : List C_vertex :=
  (elements.drop first).take (last - first)

/-- `slack_based_filtering::sharing_cost`, for the elements of an unordered set in the order in
which it is gone through. -/
def sharing_cost (v1 : C_vertex) (candidate_clique : List C_vertex) (converter : C_vertex → Op) :
    Nat :=
  let current_clique : Finset C_vertex := insert v1 ∅
  -- `insert(candidate_clique.begin(), candidate_clique.begin())`
  let current_clique := current_clique ∪ (between candidate_clique 0 0).toFinset
  clique_cost fu con_rel allocation mux_prec data_targets current_clique converter

end Model

/-! ## What a port is fed from -/

/-- What feeds an input port. -/
inductive Source
  | register (index : Nat)
  | chained (ir_var : Nat)
  | boundModule (unit index : Nat)
  | storedByModule (unit index : Nat)
  deriving DecidableEq, Repr

section Sources

variable {Op : Type} (fu : BindingState Op) (con_rel : ConnectionRelation Op)

/-- A stored value comes from its register, when registers are bound; before that, from the
module that computes it, when that is bound. -/
def storedSource (storage_value : Nat) (def_op : Op) : Source :=
  if fu.has_register_done then .register (fu.get_register storage_value)
  else
    match fu.get_index def_op with
    | some index => .storedByModule (fu.get_assign def_op) index
    | none => .register storage_value

/-- A chained value comes from the module that computes it, when that is bound. -/
def sourceOf : ConnCode × Nat × Op → Source
  | (.no_def, ir_var, _) => .chained ir_var
  | (.no_phi_chained, ir_var, def_op) =>
    match fu.get_index def_op with
    | some index => .boundModule (fu.get_assign def_op) index
    | none => .chained ir_var
  | (.no_phi_no_chained, storage_value, def_op) => storedSource fu storage_value def_op
  | (.phi, storage_value, def_op) => storedSource fu storage_value def_op

/-- The port of the operation that a port of the unit is connected to. -/
def exchanged (v : Op) (port : Nat) : Nat :=
  if fu.get_ports_are_swapped v then Equiv.swap 0 1 port else port

/-- What the operation reads at a port of the unit. -/
def portSources (v : Op) (port : Nat) : Finset Source :=
  (((con_rel v).getD (exchanged fu v port) []).map (sourceOf fu)).toFinset

/-- What the operations of a clique read at a port of the unit they share. -/
def cliqueSources (clique : Finset C_vertex) (converter : C_vertex → Op) (port : Nat) :
    Finset Source :=
  clique.biUnion fun cv => portSources fu con_rel (converter cv) port

/-- The ports of the unit that the operations of a clique share. -/
def portCount (clique : Finset C_vertex) (converter : C_vertex → Op) : Nat :=
  clique.sup fun cv => (con_rel (converter cv)).length

/-- The two-input multiplexers in front of a unit that does the operations of a clique. -/
def muxCount (clique : Finset C_vertex) (converter : C_vertex → Op) : Nat :=
  ∑ port ∈ Finset.range (portCount con_rel clique converter),
    ((cliqueSources fu con_rel clique converter port).card - 1)

/-- Only operations with two ports have them swapped, as the binding of the interconnections
asserts. -/
def SwapsPairs (clique : Finset C_vertex) (converter : C_vertex → Op) : Prop :=
  ∀ cv ∈ clique, fu.get_ports_are_swapped (converter cv) = true →
    (con_rel (converter cv)).length = 2

end Sources

/-! ## The inputs are the sources -/

namespace PortInputs

/-- The sources that a port's sets stand for. -/
def sources (s : PortInputs) : Finset Source :=
  s.regs_in.image .register ∪ s.chained_in.image .chained ∪
    s.module_in.image (fun m => .boundModule m.1 m.2) ∪
    s.module_in_reg.image (fun m => .storedByModule m.1 m.2)

@[simp] theorem sources_empty : PortInputs.empty.sources = ∅ := rfl

/-- The four kinds are told apart, so that the sizes of the sets add up. -/
theorem card_sources (s : PortInputs) : s.sources.card = s.current_muxs := by
  unfold sources current_muxs
  rw [Finset.card_union_of_disjoint, Finset.card_union_of_disjoint, Finset.card_union_of_disjoint,
    Finset.card_image_of_injective, Finset.card_image_of_injective, Finset.card_image_of_injective,
    Finset.card_image_of_injective]
  · intro a b h
    exact Prod.ext (Source.storedByModule.inj h).1 (Source.storedByModule.inj h).2
  · intro a b h
    exact Prod.ext (Source.boundModule.inj h).1 (Source.boundModule.inj h).2
  · intro a b h
    exact Source.chained.inj h
  · intro a b h
    exact Source.register.inj h
  all_goals
    rw [Finset.disjoint_left]
    intro x hx hx'
    simp only [Finset.mem_union, Finset.mem_image] at hx hx'
    grind

end PortInputs

section Collecting

variable {Op : Type} (fu : BindingState Op) (con_rel : ConnectionRelation Op)
  (converter : C_vertex → Op)

theorem insertStored_sources (value : Nat) (def_op : Op) (s : PortInputs) :
    (insertStored fu value def_op s).sources = insert (storedSource fu value def_op) s.sources := by
  unfold insertStored storedSource
  by_cases hdone : fu.has_register_done = true
  · ext x
    simp [hdone, PortInputs.sources]
  · cases fu.get_index def_op with
    | none =>
      ext x
      simp [hdone, PortInputs.sources]
    | some index =>
      ext x
      simp [hdone, PortInputs.sources]

/-- Each case puts the source of its triple into one of the sets. -/
theorem insertTriple_sources (s : PortInputs) (t : ConnCode × Nat × Op) :
    (insertTriple fu s t).sources = insert (sourceOf fu t) s.sources := by
  obtain ⟨code, value, def_op⟩ := t
  cases code with
  | no_def =>
    ext x
    simp [insertTriple, sourceOf, PortInputs.sources]
  | no_phi_chained =>
    unfold insertTriple sourceOf
    cases fu.get_index def_op with
    | none =>
      ext x
      simp [PortInputs.sources]
      grind
    | some index =>
      ext x
      simp [PortInputs.sources]
      grind
  | no_phi_no_chained => exact insertStored_sources fu value def_op s
  | phi => exact insertStored_sources fu value def_op s

theorem foldl_insertTriple_sources (triples : List (ConnCode × Nat × Op)) (s : PortInputs) :
    (triples.foldl (insertTriple fu) s).sources =
      s.sources ∪ (triples.map (sourceOf fu)).toFinset := by
  induction triples generalizing s with
  | nil => simp
  | cons t rest ih =>
    rw [List.foldl_cons, ih, insertTriple_sources, List.map_cons, List.toFinset_cons,
      Finset.insert_union, Finset.union_insert]

/-- The sources at a port, none beyond the last one. -/
def feeds (ports : List PortInputs) (port : Nat) : Finset Source :=
  (ports.getD port .empty).sources

theorem feeds_modify (ports : List PortInputs) (f : PortInputs → PortInputs) (i port : Nat) :
    feeds (ports.modify i f) port =
      if i = port ∧ port < ports.length then (f (ports.getD port .empty)).sources
      else feeds ports port := by
  unfold feeds
  simp only [List.getD_eq_getElem?_getD, List.getElem?_modify]
  by_cases hlt : port < ports.length
  · by_cases hi : i = port <;> simp [hlt, hi]
  · simp [hlt]

theorem length_scanPorts (v : Op) (rest : List (List (ConnCode × Nat × Op))) (actual : Nat)
    (ports : List PortInputs) : (scanPorts fu v rest actual ports).length = ports.length := by
  induction rest generalizing actual ports with
  | nil => rfl
  | cons triples rest ih => rw [scanPorts, ih, List.length_modify]

/-- An operation adds to a port what it reads at the ports connected to it. -/
theorem mem_feeds_scanPorts (v : Op) (rest : List (List (ConnCode × Nat × Op))) (actual : Nat)
    (ports : List PortInputs) (port : Nat) (x : Source) :
    x ∈ feeds (scanPorts fu v rest actual ports) port ↔
      x ∈ feeds ports port ∨ port < ports.length ∧
        ∃ k, portIndex fu v (actual + k) = port ∧ x ∈ (rest.getD k []).map (sourceOf fu) := by
  induction rest generalizing actual ports with
  | nil => simp [scanPorts]
  | cons triples rest ih =>
    rw [scanPorts, ih, List.length_modify, feeds_modify, foldl_insertTriple_sources]
    -- The first port of the operation, or one of the others.
    have hsplit : (∃ k, portIndex fu v (actual + k) = port ∧
          x ∈ ((triples :: rest).getD k []).map (sourceOf fu)) ↔
        (portIndex fu v actual = port ∧ x ∈ triples.map (sourceOf fu)) ∨
          ∃ k, portIndex fu v (actual + 1 + k) = port ∧
            x ∈ (rest.getD k []).map (sourceOf fu) := by
      constructor
      · rintro ⟨k, hk, hx⟩
        cases k with
        | zero => exact .inl ⟨hk, hx⟩
        | succ k => exact .inr ⟨k, by rwa [Nat.add_assoc, Nat.add_comm 1 k], hx⟩
      · rintro (⟨hk, hx⟩ | ⟨k, hk, hx⟩)
        · exact ⟨0, hk, hx⟩
        · exact ⟨k + 1, by rwa [Nat.add_comm k 1, ← Nat.add_assoc], hx⟩
    rw [hsplit]
    by_cases hp : portIndex fu v actual = port ∧ port < ports.length
    · rw [if_pos hp, Finset.mem_union, List.mem_toFinset]
      unfold feeds
      grind
    · rw [if_neg hp]
      grind

theorem portIndex_eq_iff {v : Op} {port k : Nat}
    (hswap : fu.get_ports_are_swapped v = true → k < 2 ∧ port < 2) :
    portIndex fu v k = port ↔ k = exchanged fu v port := by
  unfold portIndex exchanged
  by_cases hs : fu.get_ports_are_swapped v = true
  · obtain ⟨hk, hport⟩ := hswap hs
    rw [if_pos hs, if_pos hs]
    obtain rfl | rfl : k = 0 ∨ k = 1 := by omega
    · obtain rfl | rfl : port = 0 ∨ port = 1 := by omega
      · simp
      · simp
    · obtain rfl | rfl : port = 0 ∨ port = 1 := by omega
      · simp
      · simp
  · rw [if_neg hs, if_neg hs]

variable {con_rel}

/-- The ports that an operation does not have feed nothing. -/
theorem mem_portSources {v : Op} {port : Nat} {x : Source} (h : x ∈ portSources fu con_rel v port) :
    exchanged fu v port < (con_rel v).length := by
  by_contra hge
  rw [portSources, List.getD_eq_default _ _ (Nat.not_lt.mp hge)] at h
  simp at h

theorem exchanged_lt {v : Op} {port : Nat}
    (hswap : fu.get_ports_are_swapped v = true → (con_rel v).length = 2)
    (h : exchanged fu v port < (con_rel v).length) : port < (con_rel v).length := by
  unfold exchanged at h
  by_cases hs : fu.get_ports_are_swapped v = true
  · rw [if_pos hs, hswap hs] at h
    rw [hswap hs]
    by_contra hge
    rw [Equiv.swap_apply_of_ne_of_ne (by omega) (by omega)] at h
    exact hge h
  · rwa [if_neg hs] at h

/-- What an operation adds to the ports is what it reads at them. -/
theorem mem_feeds_scanOperation {v : Op}
    (hswap : fu.get_ports_are_swapped v = true → (con_rel v).length = 2) {ports : List PortInputs}
    (hlen : (con_rel v).length ≤ ports.length) (port : Nat) (x : Source) :
    x ∈ feeds (scanPorts fu v (con_rel v) 0 ports) port ↔
      x ∈ feeds ports port ∨ x ∈ portSources fu con_rel v port := by
  rw [mem_feeds_scanPorts]
  refine or_congr_right ⟨?_, fun hx => ?_⟩
  · rintro ⟨hport, k, hk, hx⟩
    rw [Nat.zero_add] at hk
    have hklt : k < (con_rel v).length := by
      by_contra hge
      rw [List.getD_eq_default _ _ (Nat.not_lt.mp hge)] at hx
      simp at hx
    have hlt : fu.get_ports_are_swapped v = true → k < 2 ∧ port < 2 := by
      intro hs
      refine ⟨hswap hs ▸ hklt, ?_⟩
      rw [← hk, portIndex, if_pos hs]
      split_ifs <;> omega
    rw [(portIndex_eq_iff fu hlt).mp hk] at hx
    exact List.mem_toFinset.mpr hx
  · have hlt := mem_portSources fu hx
    have hport := exchanged_lt fu hswap hlt
    refine ⟨hport.trans_le hlen, exchanged fu v port, ?_, List.mem_toFinset.mp hx⟩
    rw [Nat.zero_add, portIndex_eq_iff fu fun hs => hswap hs ▸ ⟨hlt, hport⟩]

variable {converter} {fu}

/-- The step of the loop over the cluster, and with it the loop. -/
theorem mem_feeds_foldl {cluster : List C_vertex}
    (hswap : ∀ cv ∈ cluster, fu.get_ports_are_swapped (converter cv) = true →
      (con_rel (converter cv)).length = 2) {ports : List PortInputs}
    (hlen : ∀ cv ∈ cluster, (con_rel (converter cv)).length ≤ ports.length) (port : Nat)
    (x : Source) :
    x ∈ feeds (cluster.foldl
        (fun ports cv => scanPorts fu (converter cv) (con_rel (converter cv)) 0 ports) ports) port ↔
      x ∈ feeds ports port ∨ ∃ cv ∈ cluster, x ∈ portSources fu con_rel (converter cv) port := by
  induction cluster generalizing ports with
  | nil => simp
  | cons cv rest ih =>
    rw [List.foldl_cons, ih (fun c hc => hswap c (List.mem_cons_of_mem _ hc)) fun c hc => by
      rw [length_scanPorts]
      exact hlen c (List.mem_cons_of_mem _ hc),
      mem_feeds_scanOperation fu (hswap cv List.mem_cons_self) (hlen cv List.mem_cons_self)]
    simp only [List.exists_mem_cons_iff, or_assoc]

theorem length_foldl (cluster : List C_vertex) (ports : List PortInputs) :
    (cluster.foldl
      (fun ports cv => scanPorts fu (converter cv) (con_rel (converter cv)) 0 ports) ports).length =
      ports.length := by
  induction cluster generalizing ports with
  | nil => rfl
  | cons cv rest ih => rw [List.foldl_cons, ih, length_scanPorts]

theorem foldl_max_le_iff (cluster : List C_vertex) (m n : Nat) :
    cluster.foldl (fun m cv => max m (con_rel (converter cv)).length) m ≤ n ↔
      m ≤ n ∧ ∀ cv ∈ cluster, (con_rel (converter cv)).length ≤ n := by
  induction cluster generalizing m with
  | nil => simp
  | cons cv rest ih => rw [List.foldl_cons, ih, max_le_iff, List.forall_mem_cons, and_assoc]

theorem maxPortIndex_sort (clique : Finset C_vertex) :
    maxPortIndex con_rel converter (clique.sort (· ≤ ·)) = portCount con_rel clique converter := by
  refine eq_of_forall_ge_iff fun n => ?_
  rw [maxPortIndex, foldl_max_le_iff, portCount, Finset.sup_le_iff]
  simp

theorem length_collectInputs (clique : Finset C_vertex) :
    (collectInputs fu con_rel converter (clique.sort (· ≤ ·))).length =
      portCount con_rel clique converter := by
  rw [collectInputs, length_foldl, List.length_replicate, maxPortIndex_sort]

/-- The inputs collected at a port are what the operations of the clique read there. -/
theorem feeds_collectInputs {clique : Finset C_vertex}
    (hswap : SwapsPairs fu con_rel clique converter) (port : Nat) :
    feeds (collectInputs fu con_rel converter (clique.sort (· ≤ ·))) port =
      cliqueSources fu con_rel clique converter port := by
  ext x
  rw [collectInputs, mem_feeds_foldl fun cv hcv => hswap cv ((Finset.mem_sort _).mp hcv)]
  · have hnone : x ∉ feeds (List.replicate
        (maxPortIndex con_rel converter (clique.sort (· ≤ ·))) PortInputs.empty) port := by
      rw [feeds, List.getD_eq_getElem?_getD, List.getElem?_getD_replicate_default_eq]
      simp
    rw [or_iff_right hnone, cliqueSources, Finset.mem_biUnion]
    simp only [Finset.mem_sort]
  · intro cv hcv
    rw [List.length_replicate, maxPortIndex_sort]
    exact Finset.le_sup (f := fun cv => (con_rel (converter cv)).length)
      ((Finset.mem_sort _).mp hcv)

end Collecting

/-! ## The costs -/

section Costs

variable {Op R : Type} [Zero R] [Add R] [Max R] {fu : BindingState Op}
  {con_rel : ConnectionRelation Op} (allocation : AllocationInformation R) (mux_prec : Nat)
  (data_targets : Op → List Op) {converter : C_vertex → Op}

omit [Zero R] in
theorem foldl_addPort_total (do_estimation : Bool) (ports : List PortInputs) (e : MuxEstimate R) :
    (ports.foldl (addPort do_estimation allocation mux_prec) e).total_muxes =
      e.total_muxes + ∑ port ∈ Finset.range ports.length, ((feeds ports port).card - 1) := by
  induction ports generalizing e with
  | nil => simp
  | cons s rest ih =>
    have hs : (addPort do_estimation allocation mux_prec e s).total_muxes =
        e.total_muxes + (s.current_muxs - 1) := by
      unfold addPort
      split_ifs <;> simp only <;> omega
    rw [List.foldl_cons, ih, hs, List.length_cons, Finset.sum_range_succ']
    have hfirst : (feeds (s :: rest) 0).card = s.current_muxs := s.card_sources
    have hrest : ∀ port, feeds (s :: rest) (port + 1) = feeds rest port := fun _ => rfl
    simp only [hrest, hfirst]
    omega

theorem clique_cost_eq {clique : Finset C_vertex}
    (hswap : SwapsPairs fu con_rel clique converter) :
    clique_cost fu con_rel allocation mux_prec data_targets clique converter =
      muxCount fu con_rel clique converter := by
  rw [clique_cost, estimate_muxes, foldl_addPort_total, length_collectInputs, Nat.zero_add]
  exact Finset.sum_congr rfl fun port _ => by rw [feeds_collectInputs hswap]

theorem sharing_cost_eq (v1 : C_vertex) (candidate_clique : List C_vertex) :
    sharing_cost fu con_rel allocation mux_prec data_targets v1 candidate_clique converter =
      clique_cost fu con_rel allocation mux_prec data_targets {v1} converter := by
  simp [sharing_cost, between]

/-- Ports beyond the last one count for nothing. -/
theorem muxCount_of_le {clique : Finset C_vertex}
    (hswap : SwapsPairs fu con_rel clique converter) {n : Nat}
    (hn : portCount con_rel clique converter ≤ n) :
    muxCount fu con_rel clique converter =
      ∑ port ∈ Finset.range n, ((cliqueSources fu con_rel clique converter port).card - 1) := by
  refine Finset.sum_subset (Finset.range_subset_range.mpr hn) fun port _ hport => ?_
  have hnone : cliqueSources fu con_rel clique converter port = ∅ := by
    refine Finset.eq_empty_of_forall_notMem fun x hx => hport (Finset.mem_range.mpr ?_)
    obtain ⟨cv, hcv, hx⟩ := Finset.mem_biUnion.mp hx
    have hlt := exchanged_lt fu (hswap cv hcv) (mem_portSources fu hx)
    exact hlt.trans_le (Finset.le_sup (f := fun cv => (con_rel (converter cv)).length) hcv)
  rw [hnone]
  rfl

theorem card_sub_one_eq_iff {A B : Finset Source} (h : A ⊆ B) :
    A.card - 1 = B.card - 1 ↔ B ⊆ A ∨ B.card ≤ 1 := by
  have hle := Finset.card_le_card h
  constructor
  · intro heq
    by_cases hone : B.card ≤ 1
    · exact .inr hone
    · exact .inl (Finset.eq_of_subset_of_card_le h (by omega)).ge
  · rintro (hsub | hone)
    · rw [Finset.Subset.antisymm h hsub]
    · omega

/-- The cost of a clique counts its multiplexers.  That of sharing the unit of a clique is the
cost of the larger clique only where, at each port, the operation reads all that the clique
reads, or they read at most one source together. -/
theorem sharing_cost_iff (v1 : C_vertex) (candidate_clique : List C_vertex)
    (hswap : SwapsPairs fu con_rel (insert v1 candidate_clique.toFinset) converter) :
    (clique_cost fu con_rel allocation mux_prec data_targets candidate_clique.toFinset converter =
        muxCount fu con_rel candidate_clique.toFinset converter ∧
      sharing_cost fu con_rel allocation mux_prec data_targets v1 candidate_clique converter =
        clique_cost fu con_rel allocation mux_prec data_targets
          (insert v1 candidate_clique.toFinset) converter) ↔
      ∀ port, cliqueSources fu con_rel candidate_clique.toFinset converter port ⊆
          portSources fu con_rel (converter v1) port ∨
        (cliqueSources fu con_rel (insert v1 candidate_clique.toFinset) converter port).card ≤ 1 := by
  set C := candidate_clique.toFinset
  have hswapC : SwapsPairs fu con_rel C converter := fun cv hcv =>
    hswap cv (Finset.mem_insert_of_mem hcv)
  have hswap1 : SwapsPairs fu con_rel {v1} converter := fun cv hcv =>
    hswap cv (Finset.insert_subset_insert v1 (Finset.empty_subset C) hcv)
  have hone : ∀ port, cliqueSources fu con_rel {v1} converter port =
      portSources fu con_rel (converter v1) port := fun _ => Finset.singleton_biUnion
  have hboth : ∀ port, cliqueSources fu con_rel (insert v1 C) converter port =
      portSources fu con_rel (converter v1) port ∪ cliqueSources fu con_rel C converter port :=
    fun _ => Finset.biUnion_insert
  have hcount : portCount con_rel {v1} converter ≤ portCount con_rel (insert v1 C) converter :=
    Finset.sup_mono (Finset.insert_subset_insert v1 (Finset.empty_subset C))
  rw [and_iff_right (clique_cost_eq allocation mux_prec data_targets hswapC), sharing_cost_eq,
    clique_cost_eq allocation mux_prec data_targets hswap1,
    clique_cost_eq allocation mux_prec data_targets hswap, muxCount_of_le hswap1 hcount, muxCount]
  have hsub : ∀ port, cliqueSources fu con_rel {v1} converter port ⊆
      cliqueSources fu con_rel (insert v1 C) converter port := by
    intro port
    rw [hone, hboth]
    exact Finset.subset_union_left
  rw [Finset.sum_eq_sum_iff_of_le fun port _ =>
    Nat.sub_le_sub_right (Finset.card_le_card (hsub port)) 1]
  have hport : ∀ port, ((cliqueSources fu con_rel {v1} converter port).card - 1 =
        (cliqueSources fu con_rel (insert v1 C) converter port).card - 1) ↔
      cliqueSources fu con_rel C converter port ⊆ portSources fu con_rel (converter v1) port ∨
        (cliqueSources fu con_rel (insert v1 C) converter port).card ≤ 1 := by
    intro port
    rw [card_sub_one_eq_iff (hsub port), hone, hboth, Finset.union_subset_iff,
      and_iff_right subset_rfl]
  constructor
  · intro h port
    by_cases hlt : port < portCount con_rel (insert v1 C) converter
    · exact (hport port).mp (h port (Finset.mem_range.mpr hlt))
    · left
      intro x hx
      obtain ⟨cv, hcv, hx⟩ := Finset.mem_biUnion.mp hx
      have hle := exchanged_lt fu (hswapC cv hcv) (mem_portSources fu hx)
      exact absurd (hle.trans_le (Finset.le_sup (f := fun cv => (con_rel (converter cv)).length)
        (Finset.mem_insert_of_mem hcv))) hlt
  · exact fun h port _ => (hport port).mpr (h port)

end Costs

/-! ### Two adders -/

/-- Nothing is bound, and no ports are swapped. -/
def unbound : BindingState Nat where
  has_register_done := false
  get_register value := value
  get_index _ := none
  get_assign _ := 0
  get_ports_are_swapped _ := false

/-- Each operation reads a variable of its own at its first port and the same one at its second. -/
def ownVariables : ConnectionRelation Nat := fun v =>
  [[(.no_phi_chained, v, 0)], [(.no_phi_chained, 7, 0)]]

/-- Both operations read the same two variables. -/
def sameVariables : ConnectionRelation Nat := fun _ =>
  [[(.no_phi_chained, 5, 0)], [(.no_phi_chained, 7, 0)]]

def noEstimate : AllocationInformation Nat := ⟨fun _ _ => 0, fun _ _ => 0⟩

/-- Sharing costs nothing where nothing has to be selected. -/
theorem sharing_cost_same :
    clique_cost unbound sameVariables noEstimate 32 (fun _ => []) {2} id =
        muxCount unbound sameVariables {2} id ∧
      sharing_cost unbound sameVariables noEstimate 32 (fun _ => []) 1 [2] id =
        clique_cost unbound sameVariables noEstimate 32 (fun _ => []) {1, 2} id :=
  (sharing_cost_iff noEstimate 32 (fun _ => []) 1 [2] (by simp [SwapsPairs, unbound])).mpr
    fun port => .inl (by simp [cliqueSources, portSources, exchanged, unbound, sameVariables])

/-- Sharing with an operation that reads another variable takes a multiplexer, which the cost of
sharing leaves out. -/
theorem sharing_cost_own :
    SwapsPairs unbound ownVariables {1, 2} id ∧
      sharing_cost unbound ownVariables noEstimate 32 (fun _ => []) 1 [2] id = 0 ∧
      clique_cost unbound ownVariables noEstimate 32 (fun _ => []) {1, 2} id = 1 := by
  have hswap : SwapsPairs unbound ownVariables {1, 2} id := by simp [SwapsPairs, unbound]
  refine ⟨hswap, by decide +kernel, ?_⟩
  calc clique_cost unbound ownVariables noEstimate 32 (fun _ => []) {1, 2} id
      = muxCount unbound ownVariables {1, 2} id := clique_cost_eq noEstimate 32 _ hswap
    _ = 1 := by decide +kernel

end MuxEstimation
end HLS
end Bambu
