/-
  Bambu.Algorithms.RangeAnalysis.ConstraintGraph

  `ConstraintGraph::findIntervals` on a component of several variables: the ranges go up
  until no operation changes its sink (`preUpdate`), and `CropDFSConstraintGraph` crops
  them afterwards (`posUpdate`).

  The ranges cover the least solution of equations between sets of values.  An operation
  that has not changed its sink holds (`Holds`).  Cropping gives that up, but every sink
  keeps the values that its only operation makes of the others.
-/

import Bambu.Algorithms.RangeAnalysis.Narrow
import Bambu.Math.Collecting
import Bambu.Math.Outcome

namespace Bambu

open Bambu.Math APInt

namespace Meet

open Range

/-! ## The source -/

/-- The lambda `intervalGrowth` of `Meet::growth`. -/
def intervalGrowth (oldInterval newInterval : Range) : Except Error Range :=
  if oldInterval.isUnknown || oldInterval.isEmpty || oldInterval.isAnti || newInterval.isEmpty ||
      newInterval.isAnti then .ok newInterval
  else do
    let bw := oldInterval.bw
    let oldLower ← oldInterval.getLower
    let oldUpper ← oldInterval.getUpper
    let newLower ← newInterval.getLower
    let newUpper ← newInterval.getUpper
    if newLower < oldLower ∨ newUpper > oldUpper then
      Range.ofBounds .regular bw (if newLower < oldLower then Range.Min else oldLower)
        (if newUpper > oldUpper then Range.Max else oldUpper)
    else .ok oldInterval

/-- A strongly connected component.  `κ` are the operations in the order of their addresses;
each variable is the sink of one, and `compUseMap` lists those that read it. -/
structure ComponentGraph (ι κ : Type) [DecidableEq ι] where
  width : ι → Nat
  node : κ → OpNode ι
  component : Finset ι
  opNodes : Finset κ
  compUseMap : ι → List κ
  uses_mem : ∀ i, ∀ k ∈ compUseMap i, k ∈ opNodes
  sink_mem : ∀ k ∈ opNodes, (node k).sink ∈ component
  sink_inj : ∀ k ∈ opNodes, ∀ k' ∈ opNodes, (node k').sink = (node k).sink → k' = k
  eval_typed : ∀ k ∈ opNodes, ∀ s, Typed width s →
    Canonical ((node k).eval s) ∧ ((node k).eval s).bw = width (node k).sink
  eval_local : ∀ k ∈ opNodes, ∀ i ∈ component, k ∉ compUseMap i → ∀ s r,
    (node k).eval (Function.update s i r) = (node k).eval s

variable {ι κ : Type} [LinearOrder ι]

/-- `ConstraintGraph::update(compUseMap, actv, meet)`; `meet` stores what `combine` makes of the
range of the sink and the evaluated one. -/
def update (combine : Range → Range → Except Error Range) (G : ComponentGraph ι κ) :
    Worklist ι Range κ Error where
  uses := G.compUseMap
  sink := fun k => (G.node k).sink
  meet := fun k getRange => do
    let sinkRange ← combine (getRange (G.node k).sink) ((G.node k).eval getRange)
    .ok (sinkRange, !(getRange (G.node k).sink).isSameRange sinkRange)

/-- `generateEntryPoints` -/
def generateEntryPoints (component : Finset ι) (getRange : ι → Range) (entryPoints : Finset ι) :
    Finset ι :=
  entryPoints ∪ component.filter fun i => ¬ (getRange i).isUnknown

/-- Where `preUpdate` starts. -/
def entry (G : ComponentGraph ι κ) (getRange : ι → Range) (actv : Finset ι) :
    Worklist.Config ι Range κ :=
  ⟨getRange, [], generateEntryPoints G.component getRange actv⟩

/-- The loop of `findIntervals` that sets what is still unknown to the range of its type. -/
def initializeUnknown (component : Finset ι) (getRange : ι → Range) : ι → Range := fun i =>
  if i ∈ component ∧ (getRange i).isUnknown then
    ⟨Range.Min, Range.Max, (getRange i).bw, .regular, (getRange i).bw_valid⟩
  else getRange i

/-- `VarNode::storeAbstractState` -/
def storeAbstractState (interval : Range) : Except Error AbstractState := do
  throwAssert (¬ interval.isUnknown) "storeAbstractState doesn't handle empty set"
  let lower ← interval.getLower
  let upper ← interval.getUpper
  if lower = Range.Min then
    if upper = Range.Max then .ok .question else .ok .minus
  else if upper = Range.Max then .ok .plus
  else .ok .zero

section Crop

variable [LinearOrder κ]

/-- The loop of `crop`: the ranges, the operations to crop and the sinks that are done. -/
structure CropState (ι κ : Type) where
  getRange : ι → Range
  activeOps : Finset κ
  visitedOps : Finset ι

/-- The body of the loop, for the operation `V`. -/
def cropStep (G : ComponentGraph ι κ) (abstractState : ι → AbstractState) (c : CropState ι κ)
    (V : κ) : Except Error (CropState ι κ) :=
  let sinkId := (G.node V).sink
  if sinkId ∈ c.visitedOps then .ok { c with activeOps := c.activeOps.erase V }
  else do
    let sinkRange ← intervalCrop (c.getRange sinkId) ((G.node V).eval c.getRange)
      (abstractState sinkId)
    .ok ⟨Function.update c.getRange sinkId sinkRange,
      c.activeOps.erase V ∪ (G.compUseMap sinkId).toFinset, insert sinkId c.visitedOps⟩

/-- So many rounds of the loop. -/
def cropRun (G : ComponentGraph ι κ) (abstractState : ι → AbstractState) :
    Nat → CropState ι κ → Except Error (CropState ι κ)
  | 0, c => .ok c
  | n + 1, c =>
    if h : c.activeOps.Nonempty then
      cropStep G abstractState c (c.activeOps.min' h) >>= cropRun G abstractState n
    else .ok c

/-- Each round visits one more sink, or takes an operation out without putting others in. -/
def cropRounds (G : ComponentGraph ι κ) : Nat := G.component.card * (G.opNodes.card + 1) + 1

/-- `crop`, of the operation `op`; it ends before the rounds do. -/
def crop (G : ComponentGraph ι κ) (abstractState : ι → AbstractState) (getRange : ι → Range)
    (op : κ) : Except Error (ι → Range) := do
  let c ← cropRun G abstractState (cropRounds G) ⟨getRange, {op}, ∅⟩
  throwAssert (c.activeOps = ∅) "out of rounds"
  .ok c.getRange

/-- `CropDFSConstraintGraph::posUpdate` -/
def posUpdate (G : ComponentGraph ι κ) (getRange : ι → Range) : Except Error (ι → Range) := do
  let abstractState ← (G.component.sort (· ≤ ·)).foldlM (fun states i => do
    .ok (Function.update states i (← storeAbstractState (getRange i)))) fun _ => .zero
  (G.opNodes.sort (· ≤ ·)).foldlM (crop G abstractState) getRange

end Crop

/-! ## The values of a range -/

/-- The values that are known to reach a variable; there are none while nothing is known. -/
def held (r : Range) : Set Int := {v | r.type ≠ .unknown ∧ v ∈ r.gamma}

section Steps

variable {old new r : Range}

theorem held_of_unknown (h : r.type = .unknown) : held r = ∅ :=
  Set.eq_empty_of_forall_notMem fun _ hv => hv.1 h

theorem held_of_known (h : r.type ≠ .unknown) : held r = r.gamma :=
  Set.ext fun _ => ⟨fun hv => hv.2, fun hv => ⟨h, hv⟩⟩

/-- An operator that goes up where the old and the new range meet `C`. -/
structure Ascends (combine : Range → Range → Except Error Range) (C : Range → Range → Prop) :
    Prop where
  widened : ∀ {old new}, Canonical old → Canonical new → new.bw = old.bw → C old new →
    ∃ r, combine old new = .ok r ∧ Widened old new r
  not_reverts : ∀ {old new}, C old new → ¬ Reverts old new
  of_unknown : ∀ {old new}, old.type = .unknown → combine old new = .ok new

/-- The range that is stored has the values of both, and is the old one or of a higher rank. -/
theorem Ascends.step {combine : Range → Range → Except Error Range} {C : Range → Range → Prop}
    (h : Ascends combine C) (ho : Canonical old) (hn : Canonical new) (hbw : new.bw = old.bw)
    (hC : C old new) : ∃ r, combine old new = .ok r ∧ Canonical r ∧ r.bw = old.bw ∧
      held old ⊆ held r ∧ held new ⊆ held r ∧ (r = old ∨ rank old < rank r) := by
  obtain ⟨r, hr, hwiden⟩ := h.widened ho hn hbw hC
  have hrises := hwiden.rises (h.not_reverts hC)
  refine ⟨r, hr, hwiden.canonical, hwiden.bw, ?_⟩
  by_cases hu : old.type = .unknown
  · obtain rfl : new = r := Except.ok.inj ((h.of_unknown hu).symm.trans hr)
    rw [held_of_unknown hu]
    exact ⟨Set.empty_subset _, subset_rfl, hrises⟩
  · have hknown : r.type ≠ .unknown := by
      intro hr'
      rcases hrises with rfl | hlt
      · exact hu hr'
      · have hzero : rank r = 0 := by
          unfold rank
          rw [hr']
        omega
    rw [held_of_known hu, held_of_known hknown]
    exact ⟨hwiden.old_subset hu, fun v hv => hwiden.new_subset hv.2, hrises⟩

theorem ascends_intervalWiden (J : JumpSet) :
    Ascends (intervalWiden J.constantvector) (Advances J.constantvector) where
  widened := fun ho hn hbw hC => widened_of_not_loses J ho hn hbw hC.1
  not_reverts := fun hC => hC.2
  of_unknown := fun h => by
    rw [intervalWiden_other (.inl (by rw [h]; decide))]
    simp [h, Range.IsFull]

/-! ## Growth -/

/-- The inputs for which `growth` loses a value: a new range that is handed on without the old
values, and new bounds that the constructor wraps around. -/
def GrowthLoses (old new : Range) : Prop :=
  if old.type = .regular ∧ (new.type = .regular ∨ new.type = .unknown) then
    ∃ v ∈ old.gamma ∪ new.gamma,
      FromMinWraps old.bw (jumpLower [] old new).val (jumpUpper [] old new).val v
  else old.type ≠ .unknown ∧ ¬ old.gamma ⊆ new.gamma

/-- Without constants the bounds of two intervals jump to the infinite ones. -/
theorem intervalGrowth_regular (ho : old.type = .regular)
    (hn : new.type = .regular ∨ new.type = .unknown) :
    intervalGrowth old new = intervalWiden [] old new := by
  have hne : new.type ≠ .anti ∧ new.type ≠ .empty := by
    rcases hn with hn | hn <;> rw [hn] <;> decide
  have hoa : old.type ≠ .anti := by
    rw [ho]
    decide
  rw [intervalWiden_regular ho hn]
  unfold intervalGrowth
  rw [if_neg (by simp [ho, hne]), getLower_eq hoa, getUpper_eq hoa, getLower_eq hne.1,
    getUpper_eq hne.1]
  rfl

theorem intervalGrowth_other
    (h : ¬ (old.type = .regular ∧ (new.type = .regular ∨ new.type = .unknown))) :
    intervalGrowth old new = .ok new := by
  unfold intervalGrowth
  rw [if_pos]
  rw [other_iff]
  cases ho : old.type <;> cases hn : new.type <;> simp_all

/-- The values of a hole determine it. -/
theorem eq_of_anti (ho : old.type = .anti) (hn : new.type = .anti) (hlo : old.InLimits)
    (hln : new.InLimits) (hbw : new.bw = old.bw) (h : old.gamma = new.gamma) : new = old := by
  obtain ⟨h1, h2, h3⟩ := hlo
  obtain ⟨h4, h5, h6⟩ := hln
  rw [hbw] at h4 h6
  have hmem : ∀ v, _ ↔ _ := fun v => Set.ext_iff.mp h v
  simp only [mem_gamma_of_anti ho, mem_gamma_of_anti hn, hbw] at hmem
  have hl := hmem old.l.val
  have hu := hmem old.u.val
  have hl' := hmem new.l.val
  have hu' := hmem new.u.val
  exact eq_of_bounds hbw (hn.trans ho.symm) (by omega) (by omega)

/-- A hole handed on in place of a hole or of an interval. -/
theorem widened_anti (ho : Canonical old) (hn : Canonical new) (hbw : new.bw = old.bw)
    (hto : old.type = .regular ∨ old.type = .anti) (htn : new.type = .anti)
    (hsub : old.gamma ⊆ new.gamma) : Widened old new new where
  bw := hbw
  canonical := hn
  new_subset := subset_rfl
  old_subset := fun _ => hsub
  rises := fun _ => by
    rcases hto with hto | hto
    · refine .inr (rank_lt (.inl hto) (.inr htn) hsub (.inr ⟨hto, htn⟩))
    · by_cases hsame : old.gamma = new.gamma
      · exact .inl (eq_of_anti hto htn (ho.1.2 hto) (hn.1.2 htn) hbw hsame)
      · exact .inr (rank_lt (.inr hto) (.inr htn) hsub (.inl hsame))

theorem ascends_intervalGrowth :
    Ascends intervalGrowth fun old new => ¬ GrowthLoses old new ∧ ¬ Reverts old new where
  widened := by
    rintro old new ho hn hbw ⟨hloses, -⟩
    by_cases hjump : old.type = .regular ∧ (new.type = .regular ∨ new.type = .unknown)
    · obtain ⟨r, hr, -, hmem, hwiden⟩ :=
        widened_jump ⟨[], .nil, fun c hc => absurd hc List.not_mem_nil⟩ ho hn hbw hjump.1 hjump.2
      unfold GrowthLoses at hloses
      rw [if_pos hjump] at hloses
      rw [intervalGrowth_regular hjump.1 hjump.2]
      exact ⟨r, hr, hwiden fun v hv => (hmem v hv).mpr fun hwraps => hloses ⟨v, hv, hwraps⟩⟩
    · refine ⟨new, intervalGrowth_other hjump, ?_⟩
      unfold GrowthLoses at hloses
      rw [if_neg hjump, not_and_not_right] at hloses
      cases hto : old.type with
      | unknown => exact widened_improper ho hn hbw (.inl hto)
      | empty => exact widened_improper ho hn hbw (.inr hto)
      | anti =>
        have hsub := hloses (by rw [hto]; decide)
        by_cases htn : new.type = .anti
        · exact widened_anti ho hn hbw (.inr hto) htn hsub
        · exact widened_of_anti hn hbw hto htn hsub
      | regular =>
        have hsub := hloses (by rw [hto]; decide)
        cases htn : new.type with
        | anti => exact widened_anti ho hn hbw (.inl hto) htn hsub
        | empty =>
          obtain ⟨v, hv⟩ := regular_nonempty hto ho.1
          have hv' := hsub hv
          rw [gamma_of_empty htn] at hv'
          exact hv'.elim
        | regular => exact absurd ⟨hto, .inl htn⟩ hjump
        | unknown => exact absurd ⟨hto, .inr htn⟩ hjump
  not_reverts := fun hC => hC.2
  of_unknown := fun h => intervalGrowth_other fun hc => by
    rw [h] at hc
    cases hc.1

end Steps

/-! ## The equations -/

variable (G : ComponentGraph ι κ) (start : ι → Set Int) (post : κ → (ι → Set Int) →o Set Int)

/-- The equations of a component: `start` are the values of its inputs. -/
def ComponentGraph.equations : Equations ι Int κ where
  ops := {k | k ∈ G.opNodes}
  sink := fun k => (G.node k).sink
  start := start
  post := post

/-- The evaluations hold what the operations make of the values of the ranges. -/
def ComponentGraph.Sound : Prop :=
  ∀ k ∈ G.opNodes, ∀ s, Typed G.width s →
    post k (fun i => held (s i)) ⊆ held ((G.node k).eval s)

/-- The ranges hold every value that the variables take. -/
def Covers (s : ι → Range) : Prop :=
  ∀ i, (G.equations start post).values i ⊆ held (s i)

/-- The sink of an operation holds what the operation evaluates to. -/
def Holds (k : κ) (s : ι → Range) : Prop :=
  held ((G.node k).eval s) ⊆ held (s (G.node k).sink)

/-- The values of the inputs are there from the start. -/
structure Started (s : ι → Range) : Prop where
  typed : Typed G.width s
  start : ∀ i, start i ⊆ held (s i)

/-- The ranges during cropping. -/
structure Cropped (s : ι → Range) : Prop where
  typed : Typed G.width s
  covers : Covers G start post s

/-- The loop of `crop`. -/
structure Cropping (c : CropState ι κ) : Prop where
  cropped : Cropped G start post c.getRange
  active : c.activeOps ⊆ G.opNodes
  visited : c.visitedOps ⊆ G.component

variable {G start post}

/-! ## The upward phase -/

section Upward

variable {combine : Range → Range → Except Error Range} {C : Range → Range → Prop}
  (hasc : Ascends combine C)

theorem Typed.update {width : ι → Nat} {s : ι → Range} {i : ι} {r : Range}
    (hs : Typed width s) (hr : Canonical r) (hbw : r.bw = width i) :
    Typed width (Function.update s i r) :=
  (Function.forall_update_iff s fun j r => Canonical r ∧ r.bw = width j).mpr
    ⟨⟨hr, hbw⟩, fun j _ => hs j⟩

include hasc

/-- One operation of the upward phase. -/
theorem update_step {k : κ} (hk : k ∈ G.opNodes) {s : ι → Range} (hs : Started G start s)
    (hC : C (s (G.node k).sink) ((G.node k).eval s)) :
    ∃ r, (update combine G).meet k s = .ok (r, !(s (G.node k).sink).isSameRange r) ∧
      Started G start (Function.update s (G.node k).sink r) ∧ r.bw = G.width (G.node k).sink ∧
      held (s (G.node k).sink) ⊆ held r ∧ held ((G.node k).eval s) ⊆ held r ∧
      (r = s (G.node k).sink ∨ rank (s (G.node k).sink) < rank r) := by
  obtain ⟨hold, hwidth⟩ := hs.typed (G.node k).sink
  obtain ⟨hnew, hnewWidth⟩ := G.eval_typed k hk s hs.typed
  obtain ⟨r, hr, hcan, hbw, hsubo, hsubn, hrises⟩ :=
    hasc.step hold hnew (hnewWidth.trans hwidth.symm) hC
  refine ⟨r, ?_, ⟨hs.typed.update hcan (hbw.trans hwidth), ?_⟩, hbw.trans hwidth, hsubo, hsubn,
    hrises⟩
  · unfold update
    dsimp only
    rw [hr]
    rfl
  · exact (Function.forall_update_iff s fun i r => start i ⊆ held r).mpr
      ⟨(hs.start _).trans hsubo, fun i _ => hs.start i⟩

theorem update_rises :
    (update combine G).Rises rank (fun i => 2 * (signedRange (G.width i)).ncard + 3)
      (Started G start) fun k s => C (s (G.node k).sink) ((G.node k).eval s) := by
  constructor
  rintro k s ⟨i, hk⟩ hs hC
  obtain ⟨r, hmeet, hs', hbw, -, -, hrises⟩ := update_step hasc (G.uses_mem i k hk) hs hC
  refine ⟨r, _, hmeet, hs', ?_, hbw ▸ rank_le r, fun hmod => ?_⟩
  · exact hrises.elim (fun h => (congrArg rank h).ge) Nat.le_of_lt
  · rw [different_iff] at hmod
    exact hrises.resolve_left fun h => hmod h.symm

theorem update_settles :
    (update combine G).Settles {k | k ∈ G.opNodes} (Started G start)
      (fun k s => C (s (G.node k).sink) ((G.node k).eval s)) (Holds G) where
  uses_mem := G.uses_mem
  meet := by
    intro k hk s value modified hs hC hmeet
    obtain ⟨r, hr, hs', -, hsubo, hsubn, -⟩ := update_step hasc hk hs hC
    obtain ⟨rfl, rfl⟩ := Prod.mk.inj (Except.ok.inj (hr.symm.trans hmeet))
    refine ⟨hs', fun hsame => ?_, fun k' hk' huse hholds => ?_⟩
    · have heq : s (G.node k).sink = r := by
        by_contra hne
        rw [different_iff.mpr hne] at hsame
        cases hsame
      subst heq
      exact ⟨Function.update_eq_self _ _, hsubn⟩
    · -- Only the sink has changed, and the operation does not read it.
      change held ((G.node k').eval (Function.update s (G.node k).sink r)) ⊆
        held (Function.update s (G.node k).sink r (G.node k').sink)
      rw [G.eval_local k' hk' _ (G.sink_mem k hk) huse]
      rcases hholds with rfl | hholds
      · rw [Function.update_self]
        exact hsubn
      · rcases eq_or_ne (G.node k').sink (G.node k).sink with heq | hne
        · rw [heq, Function.update_self]
          exact hholds.trans (heq ▸ hsubo)
        · rw [Function.update_of_ne hne]
          exact hholds

/-- The ranges that `findIntervals` enters the upward phase with: an operation that does not hold
reads a variable that something is known of, and every step taken meets `C`. -/
structure Entered (G : ComponentGraph ι κ) (combine : Range → Range → Except Error Range)
    (C : Range → Range → Prop) (start : ι → Set Int) (s : ι → Range) (actv : Finset ι) : Prop
    extends Started G start s where
  active : ∀ k ∈ G.opNodes, Holds G k s ∨
    ∃ i ∈ generateEntryPoints G.component s actv, k ∈ G.compUseMap i
  steps : ∀ n c, (update combine G).run n (entry G s actv) = .ok c → ∀ k rest,
    c.pending = k :: rest → C (c.store (G.node k).sink) ((G.node k).eval c.store)

/-- The upward phase ends, and the ranges cover the values. -/
theorem update_covers (hsound : G.Sound post) {s : ι → Range}
    {actv : Finset ι} (h : Entered G combine C start s actv) :
    ∃ n c, (update combine G).run n (entry G s actv) = .ok c ∧ c.Done ∧ Typed G.width c.store ∧
      Covers G start post c.store := by
  obtain ⟨n, c, hrun, hdone⟩ := Worklist.run_done (update_rises hasc)
    (fun k ⟨i, hk⟩ => (G.sink_mem k (G.uses_mem i k hk) : _ ∈ G.component)) _ h.toStarted
    (fun _ hk => absurd hk List.not_mem_nil) h.steps
  have hsettling := Worklist.Settling.run (update_settles hasc) n ⟨h.toStarted,
    fun _ hk => absurd hk List.not_mem_nil, fun k hk => (h.active k hk).imp_right .inr⟩ h.steps hrun
  -- All operations hold now, so that the ranges are closed under them.
  have hcovers : Covers G start post c.store :=
    (G.equations start post).values_subset hsettling.inv.start fun k hk =>
      (hsound k hk _ hsettling.inv.typed).trans (hsettling.holds hdone k hk)
  exact ⟨n, c, hrun, hdone, hsettling.inv.typed, hcovers⟩

end Upward

/-! ## Cropping -/

section Cropping

/-- What both ranges hold, the cropped one holds. -/
theorem intervalCrop_spec {old new : Range} (ho : Canonical old) (hn : Canonical new)
    (hbw : new.bw = old.bw) (abstractState : AbstractState) :
    ∃ r, intervalCrop old new abstractState = .ok r ∧ Canonical r ∧ r.bw = old.bw ∧
      held old ∩ held new ⊆ held r := by
  obtain ⟨r, hr, hrw, hsub⟩ := retains_intervalCrop ho hn hbw abstractState
  suffices h : Canonical r ∧ held old ∩ held new ⊆ held r from ⟨r, hr, h.1, hrw, h.2⟩
  have hproper : r.Proper → r.WellFormed → Canonical r ∧ held old ∩ held new ⊆ held r :=
    fun h hwf => ⟨canonical_of_proper hwf h, fun v hv =>
      ⟨fun hu => h.not_unknown (isUnknown_iff.mpr hu), hsub ⟨hv.1.2, hv.2.2⟩⟩⟩
  unfold intervalCrop at hr
  split at hr
  case isTrue =>
    obtain rfl := Except.ok.inj hr
    exact ⟨hn, Set.inter_subset_right⟩
  case isFalse hother =>
    simp only [Bool.or_eq_true, isAnti_iff, Range.isEmpty_iff, not_or] at hother
    obtain ⟨⟨⟨hoa, hna⟩, hoe⟩, hne⟩ := hother
    have hto : old.type = .regular ∨ old.type = .unknown := by
      cases h : old.type <;> simp_all
    have htn : new.type = .regular ∨ new.type = .unknown := by
      cases h : new.type <;> simp_all
    obtain ⟨hol, hou⟩ := bound_cases ho hto
    obtain ⟨hnl, hnu⟩ := bound_cases hn htn
    rw [hbw] at hnl hnu
    rw [getLower_eq hoa, getUpper_eq hoa, getLower_eq hna, getUpper_eq hna] at hr
    simp only [ok_bind] at hr
    split at hr
    · obtain ⟨r', hr', -, h, hwf, -⟩ := mixed_bounds old.bw_valid hnl hou
      obtain rfl : r' = r := Except.ok.inj (hr'.symm.trans hr)
      exact hproper h hwf
    · split at hr
      · obtain ⟨r', hr', -, h, hwf, -⟩ := mixed_bounds old.bw_valid hol hnu
        obtain rfl : r' = r := Except.ok.inj (hr'.symm.trans hr)
        exact hproper h hwf
      · obtain rfl := Except.ok.inj hr
        exact ⟨ho, Set.inter_subset_left⟩

/-- What is unknown holds nothing, and the range of a type anything. -/
theorem Cropped.initializeUnknown {s : ι → Range} (h : Cropped G start post s) :
    Cropped G start post (initializeUnknown G.component s) where
  typed := by
    intro i
    unfold Meet.initializeUnknown
    split
    · refine ⟨⟨⟨fun _ => .inl ⟨rfl, rfl⟩, fun ht => by cases ht⟩, ?_⟩, (h.typed i).2⟩
      rintro (ht | ht) <;> cases ht
    · exact h.typed i
  covers := by
    intro i
    unfold Meet.initializeUnknown
    split
    · rename_i hu
      have hnone := h.covers i
      rw [held_of_unknown (isUnknown_iff.mp hu.2)] at hnone
      exact hnone.trans (Set.empty_subset _)
    · exact h.covers i

theorem initializeUnknown_known {s : ι → Range} {i : ι} (hi : i ∈ G.component)
    (ha : (s i).type ≠ .anti) : (initializeUnknown G.component s i).type ≠ .unknown ∧
      (initializeUnknown G.component s i).type ≠ .anti := by
  unfold initializeUnknown
  split
  · exact ⟨RangeType.noConfusion, RangeType.noConfusion⟩
  · rename_i hu
    exact ⟨fun h => hu ⟨hi, isUnknown_iff.mpr h⟩, ha⟩

/-- How many rounds are left at most. -/
def roundsLeft (G : ComponentGraph ι κ) (c : CropState ι κ) : Nat :=
  (G.component.card - c.visitedOps.card) * (G.opNodes.card + 1) + c.activeOps.card

theorem storeAbstractState_ok {r : Range} (hu : r.type ≠ .unknown) (ha : r.type ≠ .anti) :
    ∃ state, storeAbstractState r = .ok state := by
  unfold storeAbstractState
  rw [throwAssert_of (mt isUnknown_iff.mp hu), getLower_eq ha, getUpper_eq ha]
  simp only [ok_bind]
  split <;> split <;> exact ⟨_, rfl⟩

variable (abstractState : ι → AbstractState) (hsound : G.Sound post)
  (hinputs : ∀ i ∈ G.component, start i = ∅)

include hsound hinputs

/-- Whatever is cropped, the sink keeps the values of its operation. -/
theorem Cropped.update {s : ι → Range} (h : Cropped G start post s) {k : κ} (hk : k ∈ G.opNodes) :
    ∃ r, intervalCrop (s (G.node k).sink) ((G.node k).eval s) (abstractState (G.node k).sink) =
      .ok r ∧ Cropped G start post (Function.update s (G.node k).sink r) := by
  obtain ⟨hold, hwidth⟩ := h.typed (G.node k).sink
  obtain ⟨hnew, hnewWidth⟩ := G.eval_typed k hk s h.typed
  obtain ⟨r, hr, hcan, hbw, hsub⟩ :=
    intervalCrop_spec hold hnew (hnewWidth.trans hwidth.symm) (abstractState (G.node k).sink)
  have hevaluated : (G.equations start post).values (G.node k).sink ⊆ held ((G.node k).eval s) :=
    calc (G.equations start post).values (G.node k).sink
        ⊆ post k (G.equations start post).values :=
          (G.equations start post).values_sink_subset (hinputs _ (G.sink_mem k hk))
            fun k' hk' => G.sink_inj k hk k' hk'
      _ ⊆ post k fun i => held (s i) := (post k).monotone h.covers
      _ ⊆ held ((G.node k).eval s) := hsound k hk s h.typed
  exact ⟨r, hr, h.typed.update hcan (hbw.trans hwidth),
    (Function.forall_update_iff s fun i r => (G.equations start post).values i ⊆ held r).mpr
      ⟨fun v hv => hsub ⟨h.covers _ hv, hevaluated hv⟩, fun i _ => h.covers i⟩⟩

variable [LinearOrder κ]

theorem Cropping.step {c : CropState ι κ} (h : Cropping G start post c) {V : κ}
    (hV : V ∈ c.activeOps) :
    ∃ c', cropStep G abstractState c V = .ok c' ∧ Cropping G start post c' ∧
      roundsLeft G c' < roundsLeft G c := by
  have hk := h.active hV
  have hrest : c.activeOps.erase V ⊆ G.opNodes := (Finset.erase_subset _ _).trans h.active
  unfold cropStep
  dsimp only
  split
  · exact ⟨_, rfl, ⟨h.cropped, hrest, h.visited⟩,
      Nat.add_lt_add_left (Finset.card_erase_lt_of_mem hV) _⟩
  · rename_i hnew
    obtain ⟨r, hr, hcropped⟩ := h.cropped.update abstractState hsound hinputs hk
    have hactive : c.activeOps.erase V ∪ (G.compUseMap (G.node V).sink).toFinset ⊆ G.opNodes :=
      Finset.union_subset hrest fun k h => G.uses_mem _ k (List.mem_toFinset.mp h)
    have hvisited : insert (G.node V).sink c.visitedOps ⊆ G.component :=
      Finset.insert_subset (G.sink_mem _ hk) h.visited
    rw [hr]
    refine ⟨_, rfl, ⟨hcropped, hactive, hvisited⟩, ?_⟩
    have hcard := Finset.card_le_card hactive
    have hcard' := Finset.card_le_card hvisited
    unfold roundsLeft
    dsimp only
    rw [Finset.card_insert_of_notMem hnew] at hcard' ⊢
    -- One sink more is visited, and that makes up for all operations.
    obtain ⟨left, hleft⟩ := Nat.exists_eq_add_of_le hcard'
    rw [hleft, Nat.add_sub_cancel_left, Nat.add_assoc, Nat.add_sub_cancel_left, Nat.add_mul]
    omega

theorem Cropping.run (n : Nat) :
    ∀ c : CropState ι κ, Cropping G start post c → roundsLeft G c ≤ n →
      ∃ c', cropRun G abstractState n c = .ok c' ∧ Cropping G start post c' ∧ c'.activeOps = ∅ := by
  induction n with
  | zero =>
    intro c h hrounds
    have hempty : c.activeOps = ∅ := by
      unfold roundsLeft at hrounds
      rw [← Finset.card_eq_zero]
      omega
    exact ⟨c, rfl, h, hempty⟩
  | succ n ih =>
    intro c h hrounds
    unfold cropRun
    by_cases hne : c.activeOps.Nonempty
    · obtain ⟨d, hstep, hd, hlt⟩ :=
        h.step abstractState hsound hinputs (c.activeOps.min'_mem hne)
      rw [dif_pos hne, hstep]
      exact ih d hd (by omega)
    · rw [dif_neg hne]
      exact ⟨c, rfl, h, Finset.not_nonempty_iff_eq_empty.mp hne⟩

theorem crop_cropped {s : ι → Range} (h : Cropped G start post s) {op : κ} (hop : op ∈ G.opNodes) :
    ∃ s', crop G abstractState s op = .ok s' ∧ Cropped G start post s' := by
  obtain ⟨c, hrun, hc, hempty⟩ := Cropping.run abstractState hsound hinputs
    (cropRounds G) ⟨s, {op}, ∅⟩
    ⟨h, Finset.singleton_subset_iff.mpr hop, Finset.empty_subset _⟩ (le_refl _)
  refine ⟨c.getRange, ?_, hc.cropped⟩
  unfold crop
  rw [hrun]
  change (throwAssert (c.activeOps = ∅) "out of rounds" >>= fun _ => .ok c.getRange) = _
  rw [throwAssert_of hempty]
  rfl

theorem posUpdate_cropped {s : ι → Range} (h : Cropped G start post s)
    (hstates : ∀ i ∈ G.component, (s i).type ≠ .unknown ∧ (s i).type ≠ .anti) :
    ∃ s', posUpdate G s = .ok s' ∧ Cropped G start post s' := by
  obtain ⟨states, hstore, -⟩ := foldlM_ok (I := fun _ _ => True) (b := fun _ => AbstractState.zero)
    (f := fun states i => do .ok (Function.update states i (← storeAbstractState (s i))))
    (l := G.component.sort (· ≤ ·)) (fun _ states i hi _ => by
      have hi' := hstates i ((Finset.mem_sort _).mp hi)
      obtain ⟨state, hstate⟩ := storeAbstractState_ok hi'.1 hi'.2
      exact ⟨_, by rw [hstate]; rfl, trivial⟩) trivial
  obtain ⟨s', hfold, hs'⟩ := foldlM_ok (f := crop G states) (I := fun _ s => Cropped G start post s)
    (l := G.opNodes.sort (· ≤ ·))
    (fun _ s k hk hs => crop_cropped states hsound hinputs hs ((Finset.mem_sort _).mp hk)) h
  refine ⟨s', ?_, hs'⟩
  unfold posUpdate
  rw [hstore]
  exact hfold

end Cropping

/-! ## A variable defined by a constant and by itself -/

theorem canonical_interval : Canonical interval := by decide +kernel

/-- The component that the two solvers are run on below. -/
def constantLoop : ComponentGraph Unit Unit where
  width := fun _ => 8
  node := fun _ => ⟨(), fun _ => interval⟩
  component := {()}
  opNodes := {()}
  compUseMap := fun _ => [()]
  uses_mem := fun _ _ _ => Finset.mem_singleton_self _
  sink_mem := fun _ _ => Finset.mem_singleton_self _
  sink_inj := fun _ _ _ _ _ => rfl
  eval_typed := fun _ _ _ _ => ⟨canonical_interval, rfl⟩
  eval_local := fun _ _ _ _ huse => absurd List.mem_cons_self huse

theorem constantLoop_sound : constantLoop.Sound fun _ => OrderHom.const _ {3} := by
  have hmem : (3 : Int) ∈ held interval := ⟨RangeType.noConfusion, by decide +kernel⟩
  rintro _ - _ - v rfl
  exact hmem

/-- The range of the variable never changes. -/
theorem constantLoop_entered {combine : Range → Range → Except Error Range}
    {C : Range → Range → Prop} (h : combine interval interval = .ok interval)
    (hC : C interval interval) :
    Entered constantLoop combine C (fun _ => ∅) (fun _ => interval) ∅ where
  typed := fun _ => ⟨canonical_interval, rfl⟩
  start := fun _ => Set.empty_subset _
  active := fun _ _ => .inl subset_rfl
  steps := by
    intro n c hrun k rest _
    have hsettles : (update combine constantLoop).Settles Set.univ (fun s => s () = interval)
        (fun _ _ => True) fun _ _ => True := by
      refine ⟨fun _ _ _ => trivial, fun k _ s value modified hs _ hmeet => ?_⟩
      change (combine (s ()) interval >>= fun r => .ok (r, !(s ()).isSameRange r)) =
        .ok (value, modified) at hmeet
      rw [hs, h] at hmeet
      obtain ⟨rfl, -⟩ := Prod.mk.inj (Except.ok.inj hmeet)
      exact ⟨rfl, fun _ => ⟨funext fun _ => hs.symm, trivial⟩, fun _ _ _ _ => trivial⟩
    have hstore : c.store () = interval :=
      (Worklist.Settling.run hsettles n ⟨rfl, fun _ _ => trivial, fun _ _ => .inl trivial⟩
        (fun _ _ _ _ _ _ => trivial) hrun).inv
    change C (c.store ()) interval
    rw [hstore]
    exact hC

theorem not_reverts_interval : ¬ Reverts interval interval := by
  rintro (⟨h, -⟩ | ⟨h, -⟩) <;> cases h

/-! ## The two solvers -/

end Meet

end Bambu
