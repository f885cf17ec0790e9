/-
  Bambu.Algorithms.RangeAnalysis.MultiWayIfSound

  The sets that `processMultiWayIf` attaches to the edges, against the edges that executions take.

  The set of a condition is exact (`values_condToSet`) but for that of a disequality where one
  interval is allowed.  What remains after the conditions before it keeps the values that none of
  them takes, so that the value that goes to a target is in its set (`mem_edgeLoop`).
-/

import Bambu.Algorithms.RangeAnalysis.MultiWayIf

namespace Bambu
namespace RangeAnalysis

open Bambu.Math APInt Range

/-! ## The set of a condition -/

section CondSet

variable {S : Type} {I : IntervalSets S} {t : IntType} {c : SimpleCond} {m : Nat}

theorem values_singletonSet (hI : I.Lawful) (value : APInt) :
    I.values (singletonSet I value) = {value.val} := by
  unfold singletonSet
  rw [hI.values_add, hI.values_empty, hI.values_closed, Set.empty_union, Set.Icc_self]

theorem values_buildClosed (hI : I.Lawful) (lb ub : APInt) :
    I.values (buildClosed I lb ub) = Set.Icc lb.val ub.val := by
  unfold buildClosed
  split
  case isTrue h =>
    rw [hI.values_empty]
    exact (Set.Icc_eq_empty (not_le.mpr (SignMag.lt_iff.mp h))).symm
  case isFalse => rw [hI.values_add, hI.values_empty, hI.values_closed, Set.empty_union]

/-- The values of the type for which a condition holds. -/
def SimpleCond.holdsIn (c : SimpleCond) (t : IntType) : Set Int :=
  {x ∈ t.values | c.op.Holds x c.cst.val}

theorem SimpleCond.Fits.min_max (h : c.Fits t) :
    (if c.isSigned then getSignedMinValue c.bw else getMinValue c.bw) = t.getDomainMin ∧
      (if c.isSigned then getSignedMaxValue c.bw else getMaxValue c.bw) = t.getDomainMax := by
  rw [h.bw, h.isSigned]
  exact ⟨rfl, rfl⟩

theorem values_condSet (hI : I.Lawful) (ht : t.Bounded) (hc : c.Fits t) :
    I.values (I.intersect (condSet I (domainForVar I t) c) (domainForVar I t)) = c.holdsIn t := by
  obtain ⟨hmin, hmax⟩ := hc.min_max
  obtain ⟨h1, h2⟩ := hc.cst
  obtain ⟨hroom1, hroom2⟩ := IntType.domain_room ht
  have hsub := sub_minDelta_val (a := c.cst) (by omega)
  have hadd := add_minDelta_val (a := c.cst) (by omega)
  rw [hI.values_intersect, values_domainForVar hI]
  unfold condSet SimpleCond.holdsIn
  dsimp only
  rw [hmin, hmax]
  ext x
  simp only [Set.mem_inter_iff, Set.mem_ofPred_eq]
  rw [and_comm]
  refine and_congr_right fun hx => ?_
  cases c.op with
  | EQ =>
    rw [values_singletonSet hI]
    exact Iff.rfl
  | NE =>
    rw [hI.values_subtract, values_domainForVar hI, values_singletonSet hI]
    exact ⟨fun h => h.2, fun h => ⟨hx, h⟩⟩
  | LT =>
    dsimp only
    split
    case isTrue hle =>
      rw [SignMag.le_iff] at hle
      rw [hI.values_empty]
      exact iff_of_false id (not_lt.mpr (hle.trans hx.1))
    case isFalse =>
      rw [values_buildClosed hI, hsub, Set.mem_Icc]
      exact ⟨fun h => Int.lt_of_le_sub_one h.2, fun h => ⟨hx.1, Int.le_sub_one_of_lt h⟩⟩
  | LE =>
    dsimp only
    rw [if_neg (by rw [SignMag.lt_iff]; exact not_lt.mpr h1), values_buildClosed hI]
    exact ⟨fun h => h.2, fun h => ⟨hx.1, h⟩⟩
  | GT =>
    dsimp only
    split
    case isTrue hge =>
      rw [ge_iff_le, SignMag.le_iff] at hge
      rw [hI.values_empty]
      exact iff_of_false id (not_lt.mpr (hx.2.trans hge))
    case isFalse =>
      rw [values_buildClosed hI, hadd, Set.mem_Icc]
      exact ⟨fun h => Int.lt_of_add_one_le h.1, fun h => ⟨Int.add_one_le_of_lt h, hx.2⟩⟩
  | GE =>
    dsimp only
    rw [if_neg (by rw [gt_iff_lt, SignMag.lt_iff]; exact not_lt.mpr h2), values_buildClosed hI]
    exact ⟨fun h => h.1, fun h => ⟨h, hx.2⟩⟩

/-- The set of a disequality has two intervals, where one is allowed. -/
def Clamped (m : Nat) (t : IntType) (c : SimpleCond) : Prop :=
  m = 1 ∧ c.op = .NE ∧ t.getDomainMin < c.cst ∧ c.cst < t.getDomainMax

instance : Decidable (Clamped m t c) := inferInstanceAs (Decidable (_ ∧ _))

/-- The values for which a condition holds are consecutive, but for those of a disequality. -/
theorem holdsIn_eq (hc : c.Fits t) :
    (∃ lo hi, c.holdsIn t = Set.Icc lo hi) ∨
      (c.op = .NE ∧ t.getDomainMin < c.cst ∧ c.cst < t.getDomainMax) := by
  obtain ⟨h1, h2⟩ := hc.cst
  have hext : ∀ lo hi : Int, (∀ x, (t.getDomainMin.val ≤ x ∧ x ≤ t.getDomainMax.val) ∧
      c.op.Holds x c.cst.val ↔ lo ≤ x ∧ x ≤ hi) → ∃ lo hi, c.holdsIn t = Set.Icc lo hi :=
    fun lo hi h => ⟨lo, hi, Set.ext h⟩
  cases hop : c.op with
  | EQ =>
    refine Or.inl (hext c.cst.val c.cst.val fun x => ?_)
    rw [hop]
    simp only [Op.Holds]
    omega
  | LT =>
    refine Or.inl (hext t.getDomainMin.val (c.cst.val - 1) fun x => ?_)
    rw [hop]
    simp only [Op.Holds]
    omega
  | LE =>
    refine Or.inl (hext t.getDomainMin.val c.cst.val fun x => ?_)
    rw [hop]
    simp only [Op.Holds]
    omega
  | GT =>
    refine Or.inl (hext (c.cst.val + 1) t.getDomainMax.val fun x => ?_)
    rw [hop]
    simp only [Op.Holds]
    omega
  | GE =>
    refine Or.inl (hext c.cst.val t.getDomainMax.val fun x => ?_)
    rw [hop]
    simp only [Op.Holds]
    omega
  | NE =>
    rcases eq_or_lt_of_le h1 with hmin | hmin
    · refine Or.inl (hext (t.getDomainMin.val + 1) t.getDomainMax.val fun x => ?_)
      rw [hop]
      simp only [Op.Holds]
      omega
    rcases eq_or_lt_of_le h2 with hmax | hmax
    · refine Or.inl (hext t.getDomainMin.val (t.getDomainMax.val - 1) fun x => ?_)
      rw [hop]
      simp only [Op.Holds]
      omega
    exact Or.inr ⟨rfl, hmin, hmax⟩

/-- The set of a condition is exact, or it is clamped to the domain. -/
theorem values_condToSet (hI : I.Lawful) (ht : t.Bounded) (hc : c.Fits t) :
    I.values (condToSet I m (domainForVar I t) c) = c.holdsIn t ∨
      (Clamped m t c ∧ I.values (condToSet I m (domainForVar I t) c) = t.values) := by
  have hvalues := values_condSet hI ht hc
  unfold condToSet clampIntervals
  split
  case isFalse => exact Or.inl hvalues
  case isTrue hcount =>
    rcases holdsIn_eq hc with ⟨lo, hi, heq⟩ | ⟨hop, hmin, hmax⟩
    · have hone := hI.size_le_one (hvalues.trans heq)
      omega
    · have hgap : c.holdsIn t = Set.Icc t.getDomainMin.val t.getDomainMax.val \ {c.cst.val} := by
        unfold SimpleCond.holdsIn
        rw [hop]
        rfl
      have htwo := hI.size_le_two (hvalues.trans hgap)
      exact Or.inr ⟨⟨by omega, hop, hmin, hmax⟩, values_domainForVar hI⟩

end CondSet

/-! ## The sets of the edges -/

section Edges

variable {S : Type} {I : IntervalSets S} {t : IntType} {m : Nat} {x : Int} {key target : Nat}
  {remaining set : S} {edgeSets : List (Nat × S)} {cases : List CaseEntry} {defaultBBI : Option Nat}

/-- There is a set for the target, and the value is in it. -/
def InEdge (I : IntervalSets S) (x : Int) (key : Nat) (edgeSets : List (Nat × S)) : Prop :=
  ∃ set, edgeSets.lookup key = some set ∧ x ∈ I.values set

theorem mem_clampIntervals (hI : I.Lawful) (hx : x ∈ t.values) (h : x ∈ I.values set) :
    x ∈ I.values (clampIntervals I m (domainForVar I t) set) := by
  unfold clampIntervals
  split
  case isTrue => exact (values_domainForVar hI).symm ▸ hx
  case isFalse => exact h

theorem lookup_orConstraint_ne (hne : key ≠ target) :
    (orConstraint I m (domainForVar I t) target set edgeSets).lookup key = edgeSets.lookup key := by
  induction edgeSets with
  | nil => simp [orConstraint, List.lookup, beq_false_of_ne hne]
  | cons e rest ih =>
    obtain ⟨k, old⟩ := e
    unfold orConstraint
    split
    case isTrue h =>
      rw [List.lookup_cons, List.lookup_cons, beq_false_of_ne (h ▸ hne)]
    case isFalse => rw [List.lookup_cons, List.lookup_cons, ih]

/-- The set of the target has grown by the set that is added. -/
theorem lookup_orConstraint_self (hI : I.Lawful) (hx : x ∈ t.values)
    (h : x ∈ I.values set ∨ InEdge I x target edgeSets) :
    InEdge I x target (orConstraint I m (domainForVar I t) target set edgeSets) := by
  induction edgeSets with
  | nil =>
    rcases h with h | ⟨s, hs, -⟩
    · exact ⟨set, by simp [orConstraint], h⟩
    · cases hs
  | cons e rest ih =>
    obtain ⟨k, old⟩ := e
    unfold orConstraint
    split
    case isTrue hk =>
      refine ⟨_, by rw [List.lookup_cons, hk, beq_self_eq_true], mem_clampIntervals hI hx ?_⟩
      rw [hI.values_add]
      rcases h with h | ⟨s, hs, hmem⟩
      · exact Or.inr h
      · rw [List.lookup_cons, hk, beq_self_eq_true] at hs
        cases hs
        exact Or.inl hmem
    case isFalse hk =>
      have hskip : ∀ l : List (Nat × S), ((k, old) :: l).lookup target = l.lookup target :=
        fun l => by
        rw [List.lookup_cons, beq_false_of_ne hk]
      unfold InEdge at h ih ⊢
      rw [hskip] at h ⊢
      exact ih h

/-- A value stays in the set of an edge. -/
theorem InEdge.addOrConstraint (h : InEdge I x key edgeSets) (hI : I.Lawful) (hx : x ∈ t.values) :
    InEdge I x key (addOrConstraint I m (domainForVar I t) target set edgeSets) := by
  unfold RangeAnalysis.addOrConstraint
  split
  · exact h
  rcases eq_or_ne key target with rfl | hne
  · exact lookup_orConstraint_self hI hx (Or.inr h)
  · unfold InEdge
    rw [lookup_orConstraint_ne hne]
    exact h

theorem inEdge_addOrConstraint (hI : I.Lawful) (hx : x ∈ t.values) (h : x ∈ I.values set) :
    InEdge I x target (addOrConstraint I m (domainForVar I t) target set edgeSets) := by
  unfold RangeAnalysis.addOrConstraint
  split
  case isTrue hempty =>
    rw [hI.isEmpty_iff] at hempty
    rw [hempty] at h
    exact h.elim
  case isFalse => exact lookup_orConstraint_self hI hx (Or.inl h)

theorem InEdge.edgeLoop (h : InEdge I x key edgeSets) (hI : I.Lawful) (hx : x ∈ t.values) :
    InEdge I x key (edgeLoop I m (domainForVar I t) cases remaining edgeSets).2 := by
  induction cases generalizing remaining edgeSets with
  | nil => exact h
  | cons c cases ih => exact ih (h.addOrConstraint hI hx)

theorem InEdge.addDefault (h : InEdge I x key edgeSets) (hI : I.Lawful) (hx : x ∈ t.values) :
    InEdge I x key (addDefault I m (domainForVar I t) defaultBBI (remaining, edgeSets)) := by
  cases defaultBBI with
  | none => exact h
  | some target => exact h.addOrConstraint hI hx

theorem one_not_le_zero : ¬ (1 : Int) ≤ 0 := by decide

/-- Where nothing remains, the loop and the default add nothing. -/
theorem addDefault_edgeLoop_of_empty (hI : I.Lawful) (h : I.values remaining = ∅) :
    addDefault I m (domainForVar I t) defaultBBI
      (edgeLoop I m (domainForVar I t) cases remaining edgeSets) = edgeSets := by
  have hnone : ∀ {target : Nat} {set : S}, I.values set = ∅ →
      addOrConstraint I m (domainForVar I t) target set edgeSets = edgeSets := fun hset =>
    if_pos ((hI.isEmpty_iff _).mpr hset)
  induction cases generalizing remaining with
  | nil =>
    cases defaultBBI with
    | none => rfl
    | some target => exact hnone h
  | cons c cases ih =>
    unfold edgeLoop
    dsimp only
    rw [hnone (by rw [hI.values_intersect, h, Set.empty_inter])]
    apply ih
    -- The empty set has no intervals, so that it is not clamped.
    have hempty : I.values (I.subtract remaining (condToSet I m (domainForVar I t) c.cond)) = ∅ := by
      rw [hI.values_subtract, h, Set.empty_sdiff]
    have hone := hI.size_le_one (hempty.trans (Set.Icc_eq_empty one_not_le_zero).symm)
    unfold clampIntervals
    rw [if_neg (by omega)]
    exact hempty

/-- The target of the first case that holds for a value, or the default. -/
def caseTarget (x : Int) (defaultBBI : Option Nat) : List CaseEntry → Option Nat
  | [] => defaultBBI
  | c :: cases =>
    if c.cond.op.Holds x c.cond.cst.val then some c.targetBBI else caseTarget x defaultBBI cases

theorem caseTarget_mem (h : caseTarget x defaultBBI cases = some target) :
    target ∈ cases.map CaseEntry.targetBBI ++ defaultBBI.toList := by
  induction cases with
  | nil =>
    have hdefault : defaultBBI = some target := h
    rw [hdefault]
    exact List.mem_singleton_self target
  | cons c cases ih =>
    unfold caseTarget at h
    split at h
    · cases h
      exact List.mem_cons_self
    · exact List.mem_cons_of_mem _ (ih h)

/-- Behind a condition whose set is clamped, no target is one of those up to it. -/
def FreshTargets (m : Nat) (t : IntType) (all : List CaseEntry) (defaultBBI : Option Nat) : Prop :=
  ∀ before c after, all = before ++ c :: after → Clamped m t c.cond →
    ∀ key ∈ after.map CaseEntry.targetBBI ++ defaultBBI.toList,
      key ∉ before.map CaseEntry.targetBBI ++ [c.targetBBI]

/-- A value that remains is in the set of the edge that it takes, if that edge has one. -/
theorem mem_edgeLoop (hI : I.Lawful) (ht : t.Bounded) (hx : x ∈ t.values)
    {all done : List CaseEntry}
    (hall : all = done ++ cases) (hfresh : FreshTargets m t all defaultBBI)
    (hfits : ∀ c ∈ cases, c.cond.Fits t) (hkeys : ∀ key, key ∉ done.map CaseEntry.targetBBI →
      edgeSets.lookup key = none)
    (hin : x ∈ I.values remaining) (hsub : I.values remaining ⊆ t.values)
    (htarget : caseTarget x defaultBBI cases = some target)
    (h : (addDefault I m (domainForVar I t) defaultBBI
      (edgeLoop I m (domainForVar I t) cases remaining edgeSets)).lookup target = some set) :
    x ∈ I.values set := by
  have hsome : ∀ {edges : List (Nat × S)}, InEdge I x target edges →
    edges.lookup target = some set →
      x ∈ I.values set := by
    rintro edges ⟨s, hs, hmem⟩ hlookup
    rw [hs] at hlookup
    cases hlookup
    exact hmem
  induction cases generalizing done remaining edgeSets with
  | nil =>
    obtain rfl : defaultBBI = some target := htarget
    exact hsome (inEdge_addOrConstraint hI hx hin) h
  | cons c cases ih =>
    have hexact := values_condToSet (m := m) hI ht (hfits c List.mem_cons_self)
    unfold caseTarget at htarget
    split at htarget
    case isTrue hholds =>
      cases htarget
      have hset : x ∈ I.values (condToSet I m (domainForVar I t) c.cond) := by
        rcases hexact with heq | ⟨-, heq⟩
        · exact heq.symm ▸ ⟨hx, hholds⟩
        · exact heq.symm ▸ hx
      have hpath : InEdge I x c.targetBBI (addOrConstraint I m (domainForVar I t) c.targetBBI
          (I.intersect remaining (condToSet I m (domainForVar I t) c.cond)) edgeSets) :=
        inEdge_addOrConstraint hI hx ((hI.values_intersect _ _).symm ▸ ⟨hin, hset⟩)
      exact hsome ((hpath.edgeLoop hI hx).addDefault hI hx) h
    case isFalse hnot =>
      have hkeys' : ∀ key, key ∉ (done ++ [c]).map CaseEntry.targetBBI →
          (addOrConstraint I m (domainForVar I t) c.targetBBI
            (I.intersect remaining (condToSet I m (domainForVar I t) c.cond)) edgeSets).lookup key =
              none := by
        intro key hkey
        rw [List.map_append, List.mem_append, not_or] at hkey
        have hne : key ≠ c.targetBBI := fun heq => hkey.2 (heq ▸ List.mem_singleton_self _)
        unfold addOrConstraint
        split
        · exact hkeys key hkey.1
        · rw [lookup_orConstraint_ne hne]
          exact hkeys key hkey.1
      rcases hexact with heq | ⟨hclamped, heq⟩
      · -- What remains is exact, or larger.
        refine ih (hall.trans (List.append_cons done c cases))
          (fun d hd => hfits d (List.mem_cons_of_mem _ hd)) hkeys' ?_ ?_ htarget h
        · apply mem_clampIntervals hI hx
          rw [hI.values_subtract, heq]
          exact ⟨hin, fun h => hnot h.2⟩
        · unfold clampIntervals
          split
          · exact (values_domainForVar hI).subset
          · rw [hI.values_subtract]
            exact Set.sdiff_subset.trans hsub
      · -- Nothing remains, and the edge that the value takes has no set.
        have hempty : I.values (I.subtract remaining (condToSet I m (domainForVar I t) c.cond)) = ∅ := by
          rw [hI.values_subtract, heq, Set.sdiff_eq_empty]
          exact hsub
        have hone := hI.size_le_one (hempty.trans (Set.Icc_eq_empty one_not_le_zero).symm)
        unfold edgeLoop at h
        dsimp only at h
        unfold clampIntervals at h
        rw [if_neg (by omega), addDefault_edgeLoop_of_empty hI hempty] at h
        have hnew := hfresh done c cases hall hclamped target (caseTarget_mem htarget)
        rw [hkeys' target (by rwa [List.map_append])] at h
        cases h

end Edges

/-! ## The whole statement -/

section Statement

variable {f : Function} {fuel : Nat} {env : Nat → Int} {gmw : MultiWayIf}

/-- A condition with the case that it is parsed to. -/
abbrev Parsed := Node × CaseEntry

/-- The entries of the statement that the cases come from. -/
def statementOf (entries : List Parsed) (defaultBBI : Option Nat) : MultiWayIf :=
  entries.map (fun e => (some e.1, e.2.targetBBI)) ++ defaultBBI.toList.map (none, ·)

/-- The cases are parsed from the conditions, in order, and compare one variable. -/
theorem collectCases_spec {switchVar : Option (Nat × Nat)} {cases : List CaseEntry}
    {defaultBBI : Option Nat}
    (h : collectCases f fuel switchVar gmw = .ok (some (cases, defaultBBI))) :
    ∃ entries : List Parsed, cases = entries.map Prod.snd ∧ gmw = statementOf entries defaultBBI ∧
      (∀ e ∈ entries, parseSimpleCond f fuel e.1 = .ok (some e.2.cond)) ∧
      ∃ var, (∀ s ∈ switchVar, var = s.1) ∧ ∀ e ∈ entries, e.2.cond.var = var := by
  induction gmw generalizing switchVar cases with
  | nil =>
    cases h
    refine ⟨[], rfl, rfl, fun e he => absurd he List.not_mem_nil, ?_⟩
    cases switchVar with
    | none => exact ⟨0, fun s hs => absurd hs (Option.not_mem_none s),
      fun e he => absurd he List.not_mem_nil⟩
    | some s =>
      exact ⟨s.1, fun s' hs => by rw [Option.mem_some.mp hs], fun e he => absurd he List.not_mem_nil⟩
  | cons entry rest ih =>
    obtain ⟨cond, targetBBI⟩ := entry
    cases cond with
    | none =>
      unfold collectCases at h
      have h := Except.ok.inj h
      split at h
      case isFalse => cases h
      case isTrue hrest =>
        rw [List.isEmpty_iff] at hrest
        cases h
        refine ⟨[], rfl, by rw [hrest]; rfl, fun e he => absurd he List.not_mem_nil, ?_⟩
        cases switchVar with
        | none => exact ⟨0, fun s hs => absurd hs (Option.not_mem_none s),
          fun e he => absurd he List.not_mem_nil⟩
        | some s =>
          exact ⟨s.1, fun s' hs => by rw [Option.mem_some.mp hs], fun e he => absurd he List.not_mem_nil⟩
    | some cond =>
      obtain ⟨parsed, hparsed, h⟩ := bind_ok h
      cases parsed with
      | none => cases h
      | some parsed =>
        dsimp only at h
        split at h
        case isFalse => cases h
        case isTrue hsame =>
          obtain ⟨found, hfound, h⟩ := bind_ok h
          cases found with
          | none => cases h
          | some found =>
            cases h
            obtain ⟨entries, hcases, hrest, hentries, var, hswitch, hvar⟩ := ih hfound
            have hvareq : parsed.var = var := by
              cases switchVar with
              | none => exact (hswitch _ rfl).symm
              | some s => rw [(hsame s rfl).1, hswitch s rfl]
            refine ⟨(cond, ⟨parsed, targetBBI⟩) :: entries, by rw [hcases]; rfl, by rw [hrest]; rfl,
              List.forall_mem_cons.mpr ⟨hparsed, hentries⟩, var, ?_,
              List.forall_mem_cons.mpr ⟨hvareq, hvar⟩⟩
            intro s hs
            rw [Option.mem_def] at hs
            exact hswitch s (by rw [hs]; rfl)

/-- The statement jumps where the cases say. -/
theorem caseTarget_eq {x : Int} {defaultBBI : Option Nat} {entries : List Parsed}
    (h : ∀ e ∈ entries, (valueOf env e.1 ≠ 0 ↔ e.2.cond.op.Holds x e.2.cond.cst.val)) :
    caseTarget x defaultBBI (entries.map Prod.snd) = jumpTarget env (statementOf entries defaultBBI) := by
  induction entries with
  | nil => cases defaultBBI <;> rfl
  | cons e entries ih =>
    obtain ⟨he, hrest⟩ := List.forall_mem_cons.mp h
    show (if _ then _ else _) = if _ then _ else _
    rw [ih hrest]
    exact if_congr he.symm rfl rfl

theorem attach_lookup {S : Type} {I : IntervalSets S} {m : Nat} {t : IntType}
    {sets : List (Nat × S)}
    {edges : List (Nat × ValueRange S)} (h : attach I m t sets = .ok edges) {key : Nat}
    {vr : ValueRange S} (hkey : edges.lookup key = some vr) :
    ∃ set, sets.lookup key = some set ∧ toValueRange I t set m true = .ok vr := by
  induction sets generalizing edges with
  | nil =>
    cases h
    cases hkey
  | cons e sets ih =>
    obtain ⟨k, set⟩ := e
    obtain ⟨vr', hvr, h⟩ := bind_ok h
    obtain ⟨edges', hedges, h⟩ := bind_ok h
    cases h
    rw [List.lookup_cons] at hkey ⊢
    cases hk : key == k with
    | true =>
      rw [hk] at hkey
      cases hkey
      exact ⟨set, rfl, hvr⟩
    | false =>
      rw [hk] at hkey
      exact ih hedges hkey

/-- The constant of each comparison is of the type of the variable that it is compared with. -/
def WellTyped (f : Function) (fuel : Nat) (gmw : MultiWayIf) : Prop :=
  ∀ cond target, (some cond, target) ∈ gmw → ∀ op op0 op1 varOp cst,
    comparison f fuel cond = .ok (some (op, op0, op1)) →
      varAndConstant op0 op1 = some (varOp, cst) → cst.val ∈ (f.type varOp).values

/-- What keeps the sets of the edges from losing a value. -/
structure KeepsValues (m : Nat) (f : Function) (fuel : Nat) (env : Nat → Int) (gmw : MultiWayIf) :
    Prop where
  /-- No constant is on the left of a directed predicate. -/
  side : ∀ cond target, (some cond, target) ∈ gmw → ∀ op op0 op1,
    comparison f fuel cond = .ok (some (op, op0, op1)) → op0.IsConstant = true →
      op = .EQ ∨ op = .NE
  /-- The conversions that are traversed do not change the value. -/
  value : ∀ cond target, (some cond, target) ∈ gmw → ∀ op op0 op1 varOp cst canon,
    comparison f fuel cond = .ok (some (op, op0, op1)) →
      varAndConstant op0 op1 = some (varOp, cst) → canonVar f fuel varOp = .ok (some canon) →
        env canon = env varOp
  /-- Behind a disequality whose set is clamped, no target is one of those up to it. -/
  fresh : ∀ before cond target after c, gmw = before ++ (some cond, target) :: after →
    parseSimpleCond f fuel cond = .ok (some c) → Clamped m (f.type c.var) c →
      ∀ key ∈ after.map Prod.snd, key ∉ before.map Prod.snd ++ [target]

theorem KeepsValues.freshTargets {m : Nat} (h : KeepsValues m f fuel env gmw)
    {entries : List Parsed} {defaultBBI : Option Nat} (hgmw : gmw = statementOf entries defaultBBI)
    (hparsed : ∀ e ∈ entries, parseSimpleCond f fuel e.1 = .ok (some e.2.cond)) {var : Nat}
    (hvar : ∀ e ∈ entries, e.2.cond.var = var) :
    FreshTargets m (f.type var) (entries.map Prod.snd) defaultBBI := by
  intro before c after hsplit hclamped key hkey
  obtain ⟨before', rest', rfl, rfl, hrest⟩ := List.map_eq_append_iff.mp hsplit
  obtain ⟨e, after', rfl, rfl, rfl⟩ := List.map_eq_cons_iff.mp hrest
  have he : e ∈ before' ++ e :: after' := List.mem_append_right _ List.mem_cons_self
  have hkeys : ∀ entries : List Parsed, entries.map (fun e => e.2.targetBBI) =
      (entries.map fun e => (some e.1, e.2.targetBBI)).map Prod.snd := fun entries => by
    rw [List.map_map]
    rfl
  have hdefault : defaultBBI.toList = (defaultBBI.toList.map fun k => ((none : Option Node),
    k)).map Prod.snd := by
    rw [List.map_map]
    exact (List.map_id _).symm
  have hstatement : gmw = before'.map (fun e => (some e.1, e.2.targetBBI)) ++
      (some e.1, e.2.targetBBI) :: (after'.map (fun e => (some e.1, e.2.targetBBI)) ++
        defaultBBI.toList.map (none, ·)) := by
    rw [hgmw]
    unfold statementOf
    rw [List.map_append, List.append_assoc, List.map_cons, List.cons_append]
  have hnew := h.fresh _ _ _ _ e.2.cond hstatement (hparsed e he) (by rwa [hvar e he]) key
  rw [List.map_map] at hkey ⊢
  rw [List.map_append, ← hkeys, ← hkeys, ← hdefault] at hnew
  exact hnew hkey

def signedWord : IntType := ⟨4, true, bwValid_four⟩

theorem bwValid_one : 0 < 1 ∧ 1 ≤ maxDigits := by decide

def truthValue : IntType := ⟨1, false, bwValid_one⟩

def five : Node := .constant_int_val_node 3 5

/-- Variable 1 is the parameter, variable 2 the comparison. -/
def compareFive (op0 op1 : Node) : Function where
  type
    | 1 => signedWord
    | _ => truthValue
  GetDefStmt
    | 2 => .assign_stmt (.binary_node .lt_node op0 op1)
    | _ => .nop_stmt

def ifElse : MultiWayIf := [(some (.ssa_node 2), 10), (none, 20)]

/-- The values of the variables. -/
def sixAnd (truth : Int) : Nat → Int
  | 1 => 6
  | 2 => truth
  | _ => 0

theorem sixAnd_consistent (op0 op1 : Node) (truth : Int) (htruth : truth = 0 ∨ truth = 1)
    (h : Op.LT.Holds (valueOf (sixAnd truth) op0) (valueOf (sixAnd truth) op1) ↔ truth = 1) :
    Consistent (compareFive op0 op1) (sixAnd truth) := by
  have hdef : ∀ i e, (compareFive op0 op1).GetDefStmt i = .assign_stmt e →
      i = 2 ∧ e = .binary_node .lt_node op0 op1 := by
    intro i e he
    match i, he with
    | 2, he =>
      cases he
      exact ⟨rfl, rfl⟩
  have hzero : (0 : Int) ∈ truthValue.values := (IntType.mem_values_iff (by decide)).mpr (by decide)
  refine ⟨fun i => ?_, fun i op he => ?_, fun i op he => ?_, fun i first rest he => ?_,
    fun i kind op op0' op1' he hop => ?_⟩
  · match i with
    | 0 => exact hzero
    | 1 =>
      refine (IntType.mem_values_iff (t := signedWord) (by decide)).mpr ?_
      show -half 4 ≤ 6 ∧ 6 < half 4
      decide
    | 2 =>
      refine (IntType.mem_values_iff (t := truthValue) (by decide)).mpr ?_
      show 0 ≤ truth ∧ truth < 2
      omega
    | n + 3 => exact hzero
  · cases (hdef i _ he).2
  · cases (hdef i _ he).2
  · match i, he with
    | 0, he => cases he
    | 1, he => cases he
    | 2, he => cases he
    | n + 3, he => cases he
  · obtain ⟨rfl, heq⟩ := hdef i _ he
    cases heq
    cases hop
    rcases htruth with rfl | rfl
    · rw [if_neg (by rw [h]; decide)]
      exact (readWord_zero Nat.one_pos).symm
    · rw [if_pos (h.mpr rfl)]
      rfl

theorem mem_ifElse {cond : Node} {target : Nat} (h : (some cond, target) ∈ ifElse) :
    cond = .ssa_node 2 := by
  rcases List.mem_cons.mp h with h | h
  · cases h
    rfl
  · cases List.mem_singleton.mp h

theorem comparison_ifElse {x y op0 op1 : Node} {op : Op}
    (h : comparison (compareFive x y) 2 (.ssa_node 2) = .ok (some (op, op0, op1))) :
    op = .LT ∧ op0 = x ∧ op1 = y := by
  cases h
  exact ⟨rfl, rfl, rfl⟩

/-- The comparison with the parameter on either side has its constant. -/
theorem compareFive_wellTyped {x y : Node}
    (h : ∀ varOp cst, varAndConstant x y = some (varOp, cst) → varOp = 1 ∧ cst = 5) :
    WellTyped (compareFive x y) 2 ifElse := by
  intro cond target hmem op op0 op1 varOp cst hcomparison hvar
  cases mem_ifElse hmem
  obtain ⟨-, rfl, rfl⟩ := comparison_ifElse hcomparison
  obtain ⟨rfl, rfl⟩ := h varOp cst hvar
  exact (IntType.mem_values_iff (t := signedWord) (by decide)).mpr (by decide +kernel)

set_option synthInstance.maxSize 512 in
/-- On whichever side five is, its predicate is taken for that of the parameter. -/
theorem process_compareFive : ∀ e ∈ [(Node.ssa_node 1, five), (five, Node.ssa_node 1)],
    processMultiWayIf .list 1 (compareFive e.1 e.2) 2 ifElse =
      .ok (some (1, [(10, .range ⟨-8, 4, 4, .regular, bwValid_four⟩),
        (20, .range ⟨5, 7, 4, .regular, bwValid_four⟩)])) := by
  decide +kernel

end Statement

end RangeAnalysis
end Bambu
