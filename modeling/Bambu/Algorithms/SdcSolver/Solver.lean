/-
  Bambu.Algorithms.SdcSolver.Solver

  `solve_SDC` and `solve_SDCNeg`: the graph is built, solved, and the labels are written
  under the original ids.  Both representations of the graph lead to the same labels,
  which are the greatest solution below zero.
-/

import Bambu.Algorithms.SdcSolver.Solve

namespace Bambu.SdcSolver

open Bambu.Math

/-- `static_cast<int>` of a `Distance`. -/
def castInt (distance : Int) : Int := distance.bmod (2 ^ 32)

/-- `value` for a vertex with a label. -/
def assignedValue (negateSolution : Bool) (distance : Int) : Int :=
  castInt (if negateSolution then -distance else distance)

/-- The entry for `original` in the loop over compact ids, and the next `compact`. -/
def compactEntry (originalIds : List Nat) (distances : Nat → Int) (negateSolution : Bool)
    (compact original : Nat) : (Nat × Int) × Nat :=
  if compact < originalIds.length ∧ originalIds.getD compact 0 = original then
    ((original, assignedValue negateSolution (distances compact)), compact + 1)
  else ((original, 0), compact)

/-- The two loops that fill `vals`, by the representation of the graph. -/
def writeValues (graph : SolverGraph) (distances : Nat → Int) (negateSolution : Bool) :
    List (Nat × Int) :=
  if graph.compactIds then
    ((List.range (graph.maxOriginalId + 1)).foldl (fun (vals, compact) original =>
      let (entry, compact) :=
        compactEntry graph.originalIds distances negateSolution compact original
      (vals ++ [entry], compact)) ([], 0)).1
  else
    (List.range (graph.maxOriginalId + 1)).map fun original =>
      (original, if graph.active original then assignedValue negateSolution (distances original)
        else 0)

/-- `solve_SDC_internal` once the graph is there: the verdict and `vals`. -/
def solveWithGraph (fuel : Nat) (graph : SolverGraph) (vals : List (Nat × Int))
    (negateSolution : Bool) : Option (Bool × List (Nat × Int)) :=
  match solveGraph fuel graph with
  | .error .outOfFuel => none
  | .error .infeasible => some (false, vals)
  | .ok distances =>
    if graph.vertexCount = 0 then some (true, [])
    else some (true, writeValues graph distances negateSolution)

/-- `sdc_solver::solve_SDC_internal`. -/
def solveSDCInternal (fuel : Nat) (constraints : List Edge) (vals : List (Nat × Int))
    (negateSolution : Bool) : Option (Bool × List (Nat × Int)) :=
  match buildSolverGraph constraints with
  | none => some (false, vals)
  | some graph => solveWithGraph fuel graph vals negateSolution

/-- `sdc_solver::solve_SDC`. -/
def solveSDC (fuel : Nat) (constraints : List Edge) (vals : List (Nat × Int)) :
    Option (Bool × List (Nat × Int)) :=
  solveSDCInternal fuel constraints vals false

/-- `sdc_solver::solve_SDCNeg`. -/
def solveSDCNeg (fuel : Nat) (constraints : List Edge) (vals : List (Nat × Int)) :
    Option (Bool × List (Nat × Int)) :=
  solveSDCInternal fuel constraints vals true

/-- The map after a sequence of `add_constraint` calls. -/
def constraintsOf (calls : List Edge) : List Edge :=
  calls.foldl (fun constraints call =>
    addConstraint constraints call.source call.target call.weight) []

/-- The entries that give each id up to the greatest one its value. -/
def valuesOf (constraints : List Edge) (values : Nat → Int) : List (Nat × Int) :=
  if constraints.isEmpty then []
  else (List.range (maxOriginalIdOf constraints + 1)).map fun id => (id, values id)

/-! ## The constraint map -/

theorem satisfies_constraintsOf (calls : List Edge) (V : Nat → Int) :
    Satisfies (constraintsOf calls) V ↔ Satisfies calls V := by
  have hrun : ∀ (calls start : List Edge),
      Satisfies (calls.foldl (fun constraints call =>
        addConstraint constraints call.source call.target call.weight) start) V ↔
      Satisfies start V ∧ Satisfies calls V := by
    intro calls
    induction calls with
    | nil => exact fun start => by simp [Satisfies]
    | cons call rest ih =>
      intro start
      rw [List.foldl_cons, ih, satisfies_addConstraint]
      unfold Satisfies
      rw [List.forall_mem_cons, and_assoc]
  rw [constraintsOf, hrun]
  simp [Satisfies]

theorem totalWeight_constraintsOf (calls : List Edge) :
    totalWeight (constraintsOf calls) ≤ totalWeight calls := by
  have hrun : ∀ (calls start : List Edge),
      totalWeight (calls.foldl (fun constraints call =>
        addConstraint constraints call.source call.target call.weight) start) ≤
      totalWeight start + totalWeight calls := by
    intro calls
    induction calls with
    | nil => exact fun start => le_refl _
    | cons call rest ih =>
      intro start
      have hstep := ih (addConstraint start call.source call.target call.weight)
      have hadd := totalWeight_addConstraint start call.source call.target call.weight
      rw [List.foldl_cons, totalWeight_cons]
      omega
  exact le_trans (hrun calls []) (by rw [totalWeight_nil, Nat.zero_add])

/-- The key of an entry. -/
def keyOf (edge : Edge) : Nat × Nat := (edge.source, edge.target)

/-- A call's key joins the keys of the map. -/
theorem mem_addConstraint_keys (constraints : List Edge) (i j : Nat) (weight : Int)
    (key : Nat × Nat) : key ∈ (addConstraint constraints i j weight).map keyOf ↔
      key ∈ constraints.map keyOf ∨ key = (i, j) := by
  induction constraints with
  | nil => simp [addConstraint, keyOf]
  | cons entry rest ih =>
    unfold addConstraint
    split
    · rename_i hkey
      have hentry : keyOf entry = (i, j) := Prod.ext hkey.1 hkey.2
      have hnew : keyOf ⟨i, j, weight⟩ = (i, j) := rfl
      split <;>
      · simp only [List.map_cons, List.mem_cons, hentry, hnew]
        tauto
    · have hnew : keyOf ⟨i, j, weight⟩ = (i, j) := rfl
      split
      · simp only [List.map_cons, List.mem_cons, hnew]
        tauto
      · simp only [List.map_cons, List.mem_cons, ih]
        tauto

theorem constraintsOf_keys (calls : List Edge) : ∀ call ∈ calls,
    ∃ e ∈ constraintsOf calls, keyOf e = keyOf call := by
  have hrun : ∀ (calls start : List Edge) (key : Nat × Nat),
      key ∈ start.map keyOf ∨ key ∈ calls.map keyOf →
      key ∈ (calls.foldl (fun constraints call =>
        addConstraint constraints call.source call.target call.weight) start).map keyOf := by
    intro calls
    induction calls with
    | nil => exact fun start key h => h.resolve_right List.not_mem_nil
    | cons call rest ih =>
      intro start key h
      rw [List.foldl_cons]
      refine ih _ key ?_
      rw [mem_addConstraint_keys]
      rw [List.map_cons, List.mem_cons] at h
      change _ ∨ key = keyOf call ∨ _ at h
      have hkey : keyOf call = (call.source, call.target) := rfl
      rw [hkey] at h
      tauto
  intro call hcall
  exact List.mem_map.mp (hrun calls [] _ (.inr (List.mem_map_of_mem hcall)))

/-- Every id of a call has an entry. -/
theorem mem_valuesOf {calls : List Edge} {call : Edge} (h : call ∈ calls) (values : Nat → Int) :
    (call.source, values call.source) ∈ valuesOf (constraintsOf calls) values ∧
      (call.target, values call.target) ∈ valuesOf (constraintsOf calls) values := by
  obtain ⟨e, he, hkey⟩ := constraintsOf_keys calls call h
  obtain ⟨hsource, htarget⟩ := Prod.mk.inj hkey
  obtain ⟨hs, ht⟩ := le_maxOriginalIdOf he
  have hne : (constraintsOf calls).isEmpty = false := by
    rw [List.isEmpty_eq_false_iff]
    exact List.ne_nil_of_mem he
  unfold valuesOf
  rw [hne, if_neg Bool.false_ne_true, ← hsource, ← htarget]
  exact ⟨List.mem_map_of_mem (List.mem_range.mpr (Nat.lt_succ_of_le hs)),
    List.mem_map_of_mem (List.mem_range.mpr (Nat.lt_succ_of_le ht))⟩

/-! ## Writing the values -/

/-- In an increasing list, the number of smaller elements is the position of an id. -/
theorem increasing_position {l : List Nat} (h : l.Pairwise (· < ·)) (n : Nat) :
    (n ∈ l → l.idxOf n = l.countP (· < n) ∧ l.countP (· < n) < l.length ∧
      l.getD (l.countP (· < n)) 0 = n ∧ l.countP (· < n + 1) = l.countP (· < n) + 1) ∧
    (n ∉ l → ¬ (l.countP (· < n) < l.length ∧ l.getD (l.countP (· < n)) 0 = n) ∧
      l.countP (· < n + 1) = l.countP (· < n)) := by
  induction l with
  | nil => simp
  | cons a l ih =>
    obtain ⟨ha, hl⟩ := List.pairwise_cons.mp h
    obtain ⟨hin, hout⟩ := ih hl
    simp only [List.countP_cons, decide_eq_true_eq, List.length_cons]
    rcases Nat.lt_trichotomy a n with hlt | rfl | hgt
    · -- The head is smaller and both counts pass it.
      rw [if_pos hlt, if_pos (Nat.lt_succ_of_lt hlt), List.getD_cons_succ]
      have hne : a ≠ n := hlt.ne
      constructor
      · intro hmem
        obtain ⟨h1, h2, h3, h4⟩ := hin (List.mem_of_ne_of_mem hne.symm hmem)
        rw [List.idxOf_cons_ne _ hne, h1, h4]
        exact ⟨rfl, Nat.succ_lt_succ h2, h3, rfl⟩
      · intro hmem
        obtain ⟨h1, h2⟩ := hout fun hl => hmem (List.mem_cons_of_mem _ hl)
        rw [h2]
        exact ⟨fun hboth => h1 ⟨Nat.lt_of_succ_lt_succ hboth.1, hboth.2⟩, rfl⟩
    · -- The head is the id: nothing is smaller, and the rest is greater.
      have hzero : l.countP (· < a) = 0 := List.countP_eq_zero.mpr fun b hb => by
        simpa using (ha b hb).le
      have hzero' : l.countP (· < a + 1) = 0 := List.countP_eq_zero.mpr fun b hb => by
        simpa using Nat.succ_le_of_lt (ha b hb)
      rw [if_neg (lt_irrefl a), if_pos (Nat.lt_succ_self a), hzero, hzero']
      refine ⟨fun _ => ⟨List.idxOf_cons_self, Nat.succ_pos _, rfl, rfl⟩, fun hmem => ?_⟩
      exact absurd List.mem_cons_self hmem
    · -- Everything is greater.
      have hzero : l.countP (· < n) = 0 := List.countP_eq_zero.mpr fun b hb => by
        simpa using (lt_trans hgt (ha b hb)).le
      have hzero' : l.countP (· < n + 1) = 0 := List.countP_eq_zero.mpr fun b hb => by
        simpa using Nat.succ_le_of_lt (lt_trans hgt (ha b hb))
      have hnot : n ∉ a :: l := by
        intro hmem
        rcases List.mem_cons.mp hmem with rfl | hl'
        · exact lt_irrefl _ hgt
        · exact lt_asymm hgt (ha n hl')
      rw [if_neg (not_lt.mpr hgt.le), if_neg (not_lt.mpr (Nat.succ_le_of_lt hgt)), hzero, hzero']
      refine ⟨fun hmem => absurd hmem hnot, fun _ => ⟨fun hboth => ?_, rfl⟩⟩
      exact hgt.ne' hboth.2

/-- The loop over compact ids gives every id its own label. -/
theorem writeCompact_eq {originalIds : List Nat} (h : originalIds.Pairwise (· < ·))
    (distances : Nat → Int) (negateSolution : Bool) (n : Nat) :
    (List.range n).foldl (fun (state : List (Nat × Int) × Nat) original =>
      (state.1 ++ [(compactEntry originalIds distances negateSolution state.2 original).1],
        (compactEntry originalIds distances negateSolution state.2 original).2)) ([], 0) =
    ((List.range n).map fun original => (original,
      if original ∈ originalIds then
        assignedValue negateSolution (distances (originalIds.idxOf original)) else 0),
      originalIds.countP (· < n)) := by
  induction n with
  | zero =>
    have hzero : originalIds.countP (· < 0) = 0 := List.countP_eq_zero.mpr (by simp)
    rw [hzero]
    rfl
  | succ n ih =>
    obtain ⟨hin, hout⟩ := increasing_position h n
    rw [List.range_succ, List.foldl_append, ih, List.map_append, List.foldl_cons, List.foldl_nil,
      List.map_cons, List.map_nil]
    unfold compactEntry
    by_cases hmem : n ∈ originalIds
    · obtain ⟨h1, h2, h3, h4⟩ := hin hmem
      rw [if_pos ⟨h2, h3⟩, if_pos hmem, h1, h4]
    · obtain ⟨h1, h2⟩ := hout hmem
      rw [if_neg h1, if_neg hmem, h2]

/-- A vertex that no edge touches is zero in the greatest solution. -/
theorem isGreatest_untouched {edges : List Edge} {d : Nat → Int}
    (hd : IsGreatest (Nonpositive edges) d) {v : Nat}
    (hv : ∀ e ∈ edges, e.source ≠ v ∧ e.target ≠ v) : d v = 0 := by
  have hmem : Function.update d v 0 ∈ Nonpositive edges := by
    refine ⟨fun e he => ?_, fun u => ?_⟩
    · obtain ⟨hs, ht⟩ := hv e he
      rw [Function.update_of_ne hs, Function.update_of_ne ht]
      exact hd.1.1 e he
    · rw [Function.update_apply]
      split
      · exact le_refl 0
      · exact hd.1.2 u
  have hle := hd.2 hmem v
  rw [Function.update_self] at hle
  exact le_antisymm (hd.1.2 v) hle

theorem assignedValue_zero (negateSolution : Bool) : assignedValue negateSolution 0 = 0 := by
  cases negateSolution <;> rfl

/-- A label within `int` is written as it is, or negated. -/
theorem assignedValue_eq {d : Int} (h : d.natAbs < 2 ^ 31) (negateSolution : Bool) :
    assignedValue negateSolution d = if negateSolution then -d else d := by
  unfold assignedValue castInt
  apply Int.bmod_eq_of_le
  · split <;> omega
  · split <;> omega

/-! ## Both representations -/

section Representation

variable {constraints : List Edge}

/-- What both representations give: the verdict, and the entries of the greatest
solution below zero. -/
def GivesGreatest (constraints : List Edge) (graph : SolverGraph) (fuel : Nat) : Prop :=
  ∀ (vals : List (Nat × Int)) (negateSolution : Bool),
    (¬ Feasible (properEdges constraints) →
      solveWithGraph fuel graph vals negateSolution = some (false, vals)) ∧
    ∀ d, IsGreatest (Nonpositive (properEdges constraints)) d →
      solveWithGraph fuel graph vals negateSolution =
        some (true, (List.range (maxOriginalIdOf constraints + 1)).map fun id =>
          (id, assignedValue negateSolution (d id)))

theorem buildDirectGraph_gives (constraints : List Edge) : ∃ bound, ∀ fuel, bound ≤ fuel →
    GivesGreatest constraints (buildDirectGraph constraints (maxOriginalIdOf constraints)) fuel := by
  obtain ⟨used, hstores, hactive⟩ := buildDirectGraph_stores constraints
  obtain ⟨bound, hbound⟩ := solveGraph_spec hstores
  refine ⟨bound, fun fuel hfuel vals negateSolution => ?_⟩
  unfold solveWithGraph
  rcases hbound fuel hfuel with ⟨hrun, hno⟩ | ⟨d, hrun, hd, -⟩
  · rw [hrun]
    exact ⟨fun _ => rfl, fun d hd => absurd ⟨d, hd.1.1⟩ hno⟩
  · rw [hrun]
    refine ⟨fun hno => absurd ⟨d, hd.1.1⟩ hno, fun d' hd' => ?_⟩
    rw [hd'.unique hd]
    show (if maxOriginalIdOf constraints + 1 = 0 then _ else _) = _
    rw [if_neg (Nat.succ_ne_zero _)]
    -- An id that is not active has the label zero.
    refine congrArg (fun vals => some (true, vals)) (List.map_congr_left fun id _ => ?_)
    split
    · rfl
    · rename_i hid
      have hnot : id ∉ used := mt (hactive id).mpr hid
      have hzero : d id = 0 := isGreatest_untouched hd fun e he =>
        ⟨fun hs => hnot (hs ▸ hstores.source_used e he),
          fun ht => hnot (ht ▸ hstores.target_used e he)⟩
      rw [hzero, assignedValue_zero]

/-- A system with a solution has a greatest one below zero, within its total weight. -/
theorem exists_isGreatest (h : Feasible (properEdges constraints)) :
    ∃ d, IsGreatest (Nonpositive (properEdges constraints)) d ∧
      ∀ v, (d v).natAbs ≤ totalWeight (properEdges constraints) := by
  obtain ⟨used, hstores, -⟩ := buildDirectGraph_stores constraints
  obtain ⟨bound, hbound⟩ := solveGraph_spec hstores
  rcases hbound bound (le_refl _) with ⟨-, hno⟩ | ⟨d, -, hd, hle⟩
  · exact absurd h hno
  · exact ⟨d, hd, hle⟩

theorem buildCompactGraph_gives (hne : constraints ≠ []) : ∃ bound, ∀ fuel, bound ≤ fuel →
    GivesGreatest constraints (buildCompactGraph constraints (maxOriginalIdOf constraints)) fuel := by
  have hstores := buildCompactGraph_stores constraints (maxOriginalIdOf constraints)
  obtain ⟨original, horiginal⟩ : ∃ g : Nat → Nat, g = fun i =>
      (originalIdsOf constraints).getD i 0 := ⟨_, rfl⟩
  have hinverse : ∀ e ∈ properEdges constraints,
      original ((fun id => (originalIdsOf constraints).idxOf id) e.source) = e.source ∧
        original ((fun id => (originalIdsOf constraints).idxOf id) e.target) = e.target :=
    horiginal ▸ fun e he => originalIds_inverse constraints e (mem_properEdges.mp he).1
  have hids : (originalIdsOf constraints).length ≠ 0 := by
    obtain ⟨entry, hentry⟩ := List.exists_mem_of_ne_nil constraints hne
    have hmem := (mem_originalIdsOf constraints entry.source).mpr ⟨entry, hentry, .inl rfl⟩
    exact (List.length_pos_of_mem hmem).ne'
  obtain ⟨bound, hbound⟩ := solveGraph_spec hstores
  refine ⟨bound, fun fuel hfuel vals negateSolution => ?_⟩
  unfold solveWithGraph
  rcases hbound fuel hfuel with ⟨hrun, hno⟩ | ⟨d', hrun, hd', -⟩
  · rw [hrun]
    rw [feasible_map_iff hinverse] at hno
    exact ⟨fun _ => rfl, fun d hd => absurd ⟨d, hd.1.1⟩ hno⟩
  · rw [hrun]
    refine ⟨fun hno => absurd ((feasible_map_iff hinverse).mp ⟨d', hd'.1.1⟩) hno, fun d hd => ?_⟩
    show (if (originalIdsOf constraints).length = 0 then _ else _) = _
    rw [if_neg hids]
    refine congrArg (fun vals => some (true, vals)) ?_
    refine (congrArg Prod.fst (writeCompact_eq (originalIdsOf_pairwise constraints) d'
      negateSolution (maxOriginalIdOf constraints + 1))).trans (List.map_congr_left fun id _ => ?_)
    split
    · rename_i hid
      have hlabel : d' ((originalIdsOf constraints).idxOf id) = d id :=
        isGreatest_map hd hd' hinverse (horiginal ▸ getD_idxOf hid)
      rw [hlabel]
    · rename_i hid
      have hzero : d id = 0 := isGreatest_untouched hd fun e he => by
        have hmem := (mem_properEdges.mp he).1
        exact ⟨fun hs => hid ((mem_originalIdsOf _ _).mpr ⟨e, hmem, .inl hs.symm⟩),
          fun ht => hid ((mem_originalIdsOf _ _).mpr ⟨e, hmem, .inr ht.symm⟩)⟩
      rw [hzero, assignedValue_zero]

end Representation

/-! ## Both entry points -/

/-- A map that is not refused at once gets one of the two graphs. -/
theorem buildSolverGraph_cases {constraints : List Edge} (hne : constraints ≠ [])
    (hself : hasNegativeSelf constraints = false) :
    buildSolverGraph constraints =
        some (buildDirectGraph constraints (maxOriginalIdOf constraints)) ∨
      buildSolverGraph constraints =
        some (buildCompactGraph constraints (maxOriginalIdOf constraints)) := by
  have hisEmpty : constraints.isEmpty = false := by rwa [List.isEmpty_eq_false_iff]
  unfold buildSolverGraph
  rw [hisEmpty, hself]
  simp only [Bool.false_eq_true, if_false]
  split
  · exact .inl rfl
  · exact .inr rfl

/-- The entry points of a map whose graph gives the greatest solution. -/
theorem solveSDCInternal_eq {constraints : List Edge} {fuel : Nat}
    (hself : hasNegativeSelf constraints = false)
    (hdirect : GivesGreatest constraints
      (buildDirectGraph constraints (maxOriginalIdOf constraints)) fuel)
    (hcompact : GivesGreatest constraints
      (buildCompactGraph constraints (maxOriginalIdOf constraints)) fuel)
    (hne : constraints ≠ []) (vals : List (Nat × Int)) (negateSolution : Bool) :
    (¬ Feasible constraints →
      solveSDCInternal fuel constraints vals negateSolution = some (false, vals)) ∧
    ∀ d, IsGreatest (Nonpositive (properEdges constraints)) d →
      solveSDCInternal fuel constraints vals negateSolution =
        some (true, valuesOf constraints fun id => assignedValue negateSolution (d id)) := by
  have hisEmpty : constraints.isEmpty = false := by rwa [List.isEmpty_eq_false_iff]
  have hfeasible : Feasible (properEdges constraints) ↔ Feasible constraints :=
    exists_congr (satisfies_properEdges hself)
  rw [← hfeasible]
  unfold solveSDCInternal valuesOf
  simp only [hisEmpty, Bool.false_eq_true, if_false]
  rcases buildSolverGraph_cases hne hself with hgraph | hgraph
  · rw [hgraph]
    exact hdirect vals negateSolution
  · rw [hgraph]
    exact hcompact vals negateSolution

/-- A weight that cannot hold on its own ends the solver before any graph is built. -/
theorem solveSDCInternal_of_hasNegativeSelf {constraints : List Edge}
    (hself : hasNegativeSelf constraints = true) (fuel : Nat) (vals : List (Nat × Int))
    (negateSolution : Bool) :
    solveSDCInternal fuel constraints vals negateSolution = some (false, vals) := by
  have hisEmpty : constraints.isEmpty = false := by
    rw [List.isEmpty_eq_false_iff]
    rintro rfl
    exact Bool.false_ne_true hself
  unfold solveSDCInternal buildSolverGraph
  rw [hisEmpty, hself]
  rfl

/-- The solver is sound and complete.  With weights whose absolute values together fit
`int`, and for every sequence of calls: where the system has a solution, both entry
points return true, `solve_SDC` writes one and `solve_SDCNeg` its negation; where it has
none, both return false and write nothing; and the two representations of the graph
lead to the same answer. -/
theorem sdcSolver_correct (calls : List Edge) (hsum : totalWeight calls < 2 ^ 31) :
    ∃ bound, ∀ fuel, bound ≤ fuel → ∀ vals,
      (Feasible calls → ∃ d, Satisfies calls d ∧
        (∀ call ∈ calls,
          (call.source, d call.source) ∈ valuesOf (constraintsOf calls) d ∧
          (call.target, d call.target) ∈ valuesOf (constraintsOf calls) d) ∧
        solveSDC fuel (constraintsOf calls) vals = some (true, valuesOf (constraintsOf calls) d) ∧
        solveSDCNeg fuel (constraintsOf calls) vals =
          some (true, valuesOf (constraintsOf calls) fun id => -d id)) ∧
      (¬ Feasible calls →
        solveSDC fuel (constraintsOf calls) vals = some (false, vals) ∧
        solveSDCNeg fuel (constraintsOf calls) vals = some (false, vals)) ∧
      (calls ≠ [] → hasNegativeSelf (constraintsOf calls) = false → ∀ negateSolution,
        solveWithGraph fuel (buildDirectGraph (constraintsOf calls)
            (maxOriginalIdOf (constraintsOf calls))) vals negateSolution =
          solveWithGraph fuel (buildCompactGraph (constraintsOf calls)
            (maxOriginalIdOf (constraintsOf calls))) vals negateSolution) := by
  have hfeasible : Feasible (constraintsOf calls) ↔ Feasible calls :=
    exists_congr (satisfies_constraintsOf calls)
  have hweight := totalWeight_constraintsOf calls
  by_cases hcalls : calls = []
  · -- Nothing to satisfy and nothing to write.
    subst hcalls
    refine ⟨0, fun fuel _ vals => ⟨fun _ => ?_, fun hno => ?_, fun h => absurd rfl h⟩⟩
    · have hnil : ∀ call ∈ ([] : List Edge), False := fun _ h => List.not_mem_nil h
      exact ⟨fun _ => 0, fun call h => absurd h List.not_mem_nil,
        fun call h => (hnil call h).elim, rfl, rfl⟩
    · exact absurd ⟨fun _ => 0, fun call h => absurd h List.not_mem_nil⟩ hno
  have hne : constraintsOf calls ≠ [] := by
    obtain ⟨call, hcall⟩ := List.exists_mem_of_ne_nil calls hcalls
    obtain ⟨e, he, -⟩ := constraintsOf_keys calls call hcall
    exact List.ne_nil_of_mem he
  cases hself : hasNegativeSelf (constraintsOf calls) with
  | true =>
    have hno := mt hfeasible.mpr (not_feasible_of_hasNegativeSelf hself)
    refine ⟨0, fun fuel _ vals => ⟨fun h => absurd h hno, fun _ => ?_, fun _ h => ?_⟩⟩
    · exact ⟨solveSDCInternal_of_hasNegativeSelf hself fuel vals false,
        solveSDCInternal_of_hasNegativeSelf hself fuel vals true⟩
    · cases h
  | false =>
    obtain ⟨bound₁, hdirect⟩ := buildDirectGraph_gives (constraintsOf calls)
    obtain ⟨bound₂, hcompact⟩ := buildCompactGraph_gives hne
    have hproper : Feasible (properEdges (constraintsOf calls)) ↔ Feasible calls :=
      (exists_congr (satisfies_properEdges hself)).trans hfeasible
    refine ⟨max bound₁ bound₂, fun fuel hfuel vals => ?_⟩
    have h₁ := hdirect fuel (le_trans (le_max_left _ _) hfuel)
    have h₂ := hcompact fuel (le_trans (le_max_right _ _) hfuel)
    have heq := solveSDCInternal_eq hself h₁ h₂ hne vals
    refine ⟨fun hyes => ?_, fun hno => ?_, fun _ _ negateSolution => ?_⟩
    · obtain ⟨d, hd, hle⟩ := exists_isGreatest (hproper.mpr hyes)
      have hint : ∀ v, (d v).natAbs < 2 ^ 31 := fun v =>
        lt_of_le_of_lt (le_trans (hle v) (le_trans (totalWeight_properEdges _) hweight)) hsum
      refine ⟨d, ?_, fun call hcall => mem_valuesOf hcall d, ?_, ?_⟩
      · rw [← satisfies_constraintsOf, ← satisfies_properEdges hself]
        exact hd.1.1
      · refine ((heq false).2 d hd).trans ?_
        simp only [assignedValue_eq (hint _), Bool.false_eq_true, if_false]
      · refine ((heq true).2 d hd).trans ?_
        simp only [assignedValue_eq (hint _), if_true]
    · have hno' := mt hfeasible.mp hno
      exact ⟨(heq false).1 hno', (heq true).1 hno'⟩
    · by_cases hyes : Feasible (properEdges (constraintsOf calls))
      · obtain ⟨d, hd, -⟩ := exists_isGreatest hyes
        rw [(h₁ vals negateSolution).2 d hd, (h₂ vals negateSolution).2 d hd]
      · rw [(h₁ vals negateSolution).1 hyes, (h₂ vals negateSolution).1 hyes]

example : solveSDC 9 (constraintsOf [⟨0, 1, -2⟩, ⟨1, 2, -3⟩, ⟨2, 0, 4⟩]) [] =
    some (false, []) := by decide +kernel

theorem sdcSolver_correct_chain : ∃ bound, ∀ fuel, bound ≤ fuel → ∃ d,
    Satisfies [⟨0, 1, -2⟩, ⟨1, 2, -3⟩, ⟨2, 0, 7⟩] d ∧
      solveSDC fuel (constraintsOf [⟨0, 1, -2⟩, ⟨1, 2, -3⟩, ⟨2, 0, 7⟩]) [] =
        some (true, valuesOf (constraintsOf [⟨0, 1, -2⟩, ⟨1, 2, -3⟩, ⟨2, 0, 7⟩]) d) := by
  obtain ⟨bound, h⟩ := sdcSolver_correct [⟨0, 1, -2⟩, ⟨1, 2, -3⟩, ⟨2, 0, 7⟩] (by decide)
  refine ⟨bound, fun fuel hfuel => ?_⟩
  obtain ⟨d, hd, -, hrun, -⟩ := (h fuel hfuel []).1 ⟨fun v => -(3 * v), by decide⟩
  exact ⟨d, hd, hrun⟩

/-! ## More constraints -/

theorem eq_of_mem_valuesOf {constraints : List Edge} {values : Nat → Int} {id : Nat} {x : Int}
    (h : (id, x) ∈ valuesOf constraints values) : x = values id := by
  unfold valuesOf at h
  split at h
  · cases h
  · obtain ⟨_, -, heq⟩ := List.mem_map.mp h
    obtain ⟨rfl, rfl⟩ := Prod.mk.inj heq
    rfl

/-- What is written is the greatest solution below zero, or its negation. -/
theorem solveSDCInternal_greatest {constraints : List Edge}
    (hsum : totalWeight constraints < 2 ^ 31) :
    ∃ bound, ∀ fuel, bound ≤ fuel → ∀ vals negateSolution,
      (¬ Feasible constraints →
        solveSDCInternal fuel constraints vals negateSolution = some (false, vals)) ∧
      (Feasible constraints → ∃ d, IsGreatest (Nonpositive constraints) d ∧
        solveSDCInternal fuel constraints vals negateSolution =
          some (true, valuesOf constraints fun id => if negateSolution then -d id else d id)) := by
  by_cases hne : constraints = []
  · subst hne
    have hnone : ∀ V : Nat → Int, Satisfies [] V := fun _ _ h => absurd h List.not_mem_nil
    refine ⟨0, fun fuel _ vals negateSolution => ⟨fun h => absurd ⟨fun _ => 0, hnone _⟩ h,
      fun _ => ⟨fun _ => 0, ⟨⟨hnone _, fun _ => le_refl _⟩, fun V hV v => hV.2 v⟩, ?_⟩⟩⟩
    cases negateSolution <;> rfl
  cases hself : hasNegativeSelf constraints with
  | true =>
    exact ⟨0, fun fuel _ vals negateSolution =>
      ⟨fun _ => solveSDCInternal_of_hasNegativeSelf hself fuel vals negateSolution,
        fun h => absurd h (not_feasible_of_hasNegativeSelf hself)⟩⟩
  | false =>
    obtain ⟨bound₁, hdirect⟩ := buildDirectGraph_gives constraints
    obtain ⟨bound₂, hcompact⟩ := buildCompactGraph_gives hne
    have hset : Nonpositive (properEdges constraints) = Nonpositive constraints :=
      Set.ext fun V => and_congr_left' (satisfies_properEdges hself V)
    refine ⟨max bound₁ bound₂, fun fuel hfuel vals negateSolution => ?_⟩
    have heq := solveSDCInternal_eq hself (hdirect fuel (le_trans (le_max_left _ _) hfuel))
      (hcompact fuel (le_trans (le_max_right _ _) hfuel)) hne vals negateSolution
    refine ⟨heq.1, fun hyes => ?_⟩
    obtain ⟨d, hd, hle⟩ := exists_isGreatest ((exists_congr (satisfies_properEdges hself)).mpr hyes)
    refine ⟨d, hset ▸ hd, (heq.2 d hd).trans ?_⟩
    simp only [assignedValue_eq (((hle _).trans (totalWeight_properEdges _)).trans_lt hsum)]

/-- Where more constraints have a solution, fewer have one, with values that are nowhere less, or
nowhere greater when they are negated. -/
def Tightens (calls calls' : List Edge) : Prop :=
  ∃ bound, ∀ fuel, bound ≤ fuel → ∀ vals vals' values' negateSolution,
    solveSDCInternal fuel (constraintsOf calls') vals' negateSolution = some (true, values') →
    ∃ values, solveSDCInternal fuel (constraintsOf calls) vals negateSolution =
        some (true, values) ∧
      ∀ id x x', (id, x) ∈ values → (id, x') ∈ values' →
        if negateSolution then x ≤ x' else x' ≤ x

theorem solveSDC_tightens {calls calls' : List Edge} (hsub : calls ⊆ calls')
    (hsum : totalWeight calls < 2 ^ 31) (hsum' : totalWeight calls' < 2 ^ 31) :
    Tightens calls calls' := by
  have hmono : ∀ V ∈ Nonpositive (constraintsOf calls'), V ∈ Nonpositive (constraintsOf calls) :=
    fun V hV => ⟨(satisfies_constraintsOf calls V).mpr fun e he =>
      (satisfies_constraintsOf calls' V).mp hV.1 e (hsub he), hV.2⟩
  obtain ⟨bound, h⟩ := solveSDCInternal_greatest ((totalWeight_constraintsOf calls).trans_lt hsum)
  obtain ⟨bound', h'⟩ :=
    solveSDCInternal_greatest ((totalWeight_constraintsOf calls').trans_lt hsum')
  refine ⟨max bound bound', fun fuel hfuel vals vals' values' negateSolution hrun' => ?_⟩
  obtain ⟨hno, hyes⟩ := h' fuel (le_trans (le_max_right _ _) hfuel) vals' negateSolution
  have hfeasible : Feasible (constraintsOf calls') := by
    by_contra hnot
    rw [hno hnot] at hrun'
    cases hrun'
  obtain ⟨d', hd', hwritten'⟩ := hyes hfeasible
  obtain rfl := (Prod.mk.inj (Option.some.inj (hwritten'.symm.trans hrun'))).2
  obtain ⟨d, hd, hwritten⟩ := (h fuel (le_trans (le_max_left _ _) hfuel) vals negateSolution).2
    ⟨d', (hmono d' hd'.1).1⟩
  have hle : d' ≤ d := hd.2 (hmono d' hd'.1)
  refine ⟨_, hwritten, fun id x x' hx hx' => ?_⟩
  rw [eq_of_mem_valuesOf hx, eq_of_mem_valuesOf hx']
  have hid := hle id
  cases negateSolution
  · exact hid
  · exact neg_le_neg hid

theorem solveSDC_tightens_chain :
    Tightens [⟨0, 1, -2⟩, ⟨1, 2, -3⟩] [⟨1, 2, -3⟩, ⟨2, 0, 7⟩, ⟨0, 1, -2⟩] :=
  solveSDC_tightens (by decide) (by decide) (by decide)

end Bambu.SdcSolver
