/-
  Bambu.Algorithms.RangeAnalysis.Nuutila

  `Nuutila`: the strongly connected components of the constraint graph.

  A visit returns with the visited variable in a component, or on the stack with a root of a lower
  number.  What has a lower number and is in no component reaches what has a higher one, and what
  is on the stack reaches a variable whose visit has not ended (`Visited`), so that the variables
  that a visit pops are those that reach each other and nothing else outside of the components
  (`component_of_closed`).
-/

import Bambu.Math.StronglyConnected
import Bambu.Utility.Common
import Mathlib.Data.Finset.Card

namespace Bambu
namespace RangeAnalysis
namespace Nuutila

open Bambu.Math

/-! ## The constraint graph -/

/-- An operation by its sink.  The pseudo edge for a control dependence is an operation too, named
by the operation that it is made for. -/
inductive OpNode where
  | op (address sink : Nat)
  | ControlDepOpNode (address sink : Nat)
  deriving DecidableEq

namespace OpNode

def address : OpNode → Nat
  | op address _ | ControlDepOpNode address _ => address

def getSink : OpNode → Nat
  | op _ sink | ControlDepOpNode _ sink => sink

def isControlDep : OpNode → Bool
  | op _ _ => false
  | ControlDepOpNode _ _ => true

end OpNode

/-- The operations that use a variable. -/
abbrev UseMap := Nat → Option (Finset OpNode)

/-- `order` is the order in which a set of pointers is iterated. -/
def addControlDependenceEdges (order : Finset OpNode → List OpNode) (useMap : UseMap)
    (symbMap : List (Nat × Finset OpNode)) (vars : List Nat) : Except Error UseMap :=
  symbMap.foldlM (fun useMap entry =>
    (order entry.2).foldlM (fun useMap op => do
      throwAssert (entry.1 ∈ vars) "Variable should be stored in VarNodes map"
      let cdedge := OpNode.ControlDepOpNode op.address op.getSink
      let users := (useMap entry.1).getD ∅
      .ok (Function.update useMap entry.1 (some (insert cdedge users)))) useMap) useMap

def delControlDependenceEdges (useMap : UseMap) : UseMap := fun key =>
  (useMap key).map fun users => users.filter fun op => op.isControlDep = false

/-! ## The algorithm -/

structure State where
  index : Nat
  dfs : Nat → Int
  root : Nat → Nat
  inComponent : Finset Nat
  components : Nat → Finset Nat
  worklist : List Nat
  /-- The stack of the visit of one variable of the constructor, its top first. -/
  stack : List Nat

/-- The loop that pops the variables of a component. -/
def popComponent (V : Nat) : List Nat → State → State
  | [], st => { st with stack := [] }
  | node :: rest, st =>
    if st.dfs node > st.dfs V then
      popComponent V rest { st with
        stack := rest
        inComponent := insert node st.inComponent
        components := Function.update st.components V (insert node (st.components V)) }
    else { st with stack := node :: rest }

/-- What follows the visit of the sinks: the second phase of the algorithm assigns components to
stacked nodes. -/
def close (V : Nat) (st : State) : State :=
  if decide (st.root V < V) = decide (V < st.root V) then
    popComponent V st.stack { st with
      worklist := st.worklist ++ [V]
      components := Function.update st.components V (insert V (st.components V))
      inComponent := insert V st.inComponent }
  else { st with stack := V :: st.stack }

/-- What follows the visit of one sink. -/
def lower (V sink : Nat) (st : State) : State :=
  if sink ∉ st.inComponent ∧ st.dfs (st.root V) ≥ st.dfs (st.root sink) then
    { st with root := Function.update st.root V (st.root sink) }
  else st

def start (V : Nat) (st : State) : State :=
  { st with
    dfs := Function.update st.dfs V st.index
    index := st.index + 1
    root := Function.update st.root V V }

/-- `visit`, with a bound on the depth of the recursion. -/
def visit (order : Finset OpNode → List OpNode) (useMap : UseMap) :
    Nat → Nat → State → Except Error State
  | 0, _, _ => .error .outOfFuel
  | fuel + 1, V, st =>
    match useMap V with
    -- `std::map::at` throws.
    | none => .error (.unreachable "map::at")
    | some users => do
      let st ← (order users).foldlM (fun st op => do
        let sink := op.getSink
        let st ← (if st.dfs sink < 0 then visit order useMap fuel sink st else .ok st)
        .ok (lower V sink st)) (start V st)
      .ok (close V st)

/-- The constructor: the components, and the use map it leaves. -/
def construct (order : Finset OpNode → List OpNode) (varNodes : List Nat) (useMap : UseMap)
    (symbMap : List (Nat × Finset OpNode)) : Except Error (State × UseMap) := do
  let st : State :=
    { index := 0
      dfs := fun key => if key ∈ varNodes then -1 else 0
      root := fun _ => 0
      inComponent := ∅
      components := fun _ => ∅
      worklist := []
      stack := [] }
  let useMap ← addControlDependenceEdges order useMap symbMap varNodes
  let st ← varNodes.foldlM (fun st key =>
    if st.dfs key < 0 then visit order useMap varNodes.length key { st with stack := [] }
    else .ok st) st
  .ok (st, delControlDependenceEdges useMap)

/-- The components from `begin()` to `end()`. -/
def State.iterate (st : State) : List Nat := st.worklist.reverse

/-! ## What holds between visits -/

/-- The second variable is the sink of an operation that uses the first one. -/
def Uses (useMap : UseMap) (x y : Nat) : Prop :=
  ∃ users, useMap x = some users ∧ ∃ op ∈ users, op.getSink = y

/-- The visit of the variable has begun. -/
def Seen (vars : List Nat) (st : State) (x : Nat) : Prop := x ∈ vars ∧ 0 ≤ st.dfs x

/-- It is in no component. -/
def Live (vars : List Nat) (st : State) (x : Nat) : Prop := Seen vars st x ∧ x ∉ st.inComponent

/-- The numbers, the roots and the stack, with the variables whose visit has not ended. -/
structure Visited (vars : List Nat) (useMap : UseMap) (active : List Nat) (st : State) : Prop where
  dfs_lt : ∀ x ∈ vars, st.dfs x < st.index
  dfs_inj : ∀ x y, Seen vars st x → Seen vars st y → st.dfs x = st.dfs y → x = y
  stack_iff : ∀ x, x ∈ st.stack ↔ Live vars st x ∧ x ∉ active
  active_live : ∀ x ∈ active, Live vars st x
  component_seen : ∀ x ∈ st.inComponent, Seen vars st x
  closed : ∀ x ∈ st.inComponent, ∀ y, Uses useMap x y → y ∈ st.inComponent
  finished : ∀ x ∈ st.stack, ∀ y, Uses useMap x y → Seen vars st y
  root : ∀ x, Live vars st x → Live vars st (st.root x) ∧ st.dfs (st.root x) ≤ st.dfs x ∧
    Relation.ReflTransGen (Uses useMap) x (st.root x)
  upward : ∀ x y, Live vars st x → Live vars st y → st.dfs x ≤ st.dfs y →
    Relation.ReflTransGen (Uses useMap) x y
  downward : ∀ x ∈ st.stack, ∃ g ∈ active, st.dfs g ≤ st.dfs x ∧
    Relation.ReflTransGen (Uses useMap) x g
  root_edge : ∀ x ∈ st.stack, ∀ y, Uses useMap x y → Live vars st y →
    st.dfs (st.root x) ≤ st.dfs y

/-- The components so far: no edge leads from one to a later one. -/
structure Parts (useMap : UseMap) (st : State) : Prop where
  mem_iff : ∀ x, x ∈ st.inComponent ↔ ∃ r ∈ st.worklist, x ∈ st.components r
  component : ∀ r ∈ st.worklist, ∀ y, y ∈ st.components r ↔ SameComponent (Uses useMap) r y
  empty : ∀ r, r ∉ st.worklist → st.components r = ∅
  ordered : st.worklist.Pairwise fun r r' => r ≠ r' ∧
    ∀ x ∈ st.components r, ∀ y ∈ st.components r', ¬ Uses useMap x y

/-- What does not change for the variables that have been seen before. -/
structure Keeps (vars : List Nat) (st st' : State) : Prop where
  dfs_eq : ∀ x, Seen vars st x → st'.dfs x = st.dfs x
  root_eq : ∀ x, Seen vars st x → st'.root x = st.root x
  component_iff : ∀ x, Seen vars st x → (x ∈ st'.inComponent ↔ x ∈ st.inComponent)
  dfs_new : ∀ x ∈ vars, st.dfs x < 0 → st'.dfs x < 0 ∨ (st.index : Int) ≤ st'.dfs x
  index_le : st.index ≤ st'.index

section Proof

variable {vars : List Nat} {useMap : UseMap} {active : List Nat} {st st' st₀ : State} {V w : Nat}

theorem Keeps.refl (st : State) : Keeps vars st st :=
  ⟨fun _ _ => rfl, fun _ _ => rfl, fun _ _ => Iff.rfl, fun _ _ h => Or.inl h, Nat.le_refl _⟩

theorem Keeps.seen (h : Keeps vars st st') {x : Nat} (hx : Seen vars st x) : Seen vars st' x :=
  ⟨hx.1, by rw [h.dfs_eq x hx]; exact hx.2⟩

theorem Keeps.trans {st'' : State} (h : Keeps vars st st') (h' : Keeps vars st' st'') :
    Keeps vars st st'' where
  dfs_eq x hx := (h'.dfs_eq x (h.seen hx)).trans (h.dfs_eq x hx)
  root_eq x hx := (h'.root_eq x (h.seen hx)).trans (h.root_eq x hx)
  component_iff x hx := (h'.component_iff x (h.seen hx)).trans (h.component_iff x hx)
  dfs_new x hx hneg := by
    obtain hneg' | hnew := h.dfs_new x hx hneg
    · refine (h'.dfs_new x hx hneg').imp_right fun hle => ?_
      exact le_trans (Int.ofNat_le.mpr h.index_le) hle
    · have hseen : Seen vars st' x := ⟨hx, le_trans (Int.natCast_nonneg _) hnew⟩
      rw [h'.dfs_eq x hseen]
      exact Or.inr hnew
  index_le := h.index_le.trans h'.index_le

theorem not_seen_of_neg {x : Nat} (h : st.dfs x < 0) : ¬ Seen vars st x :=
  fun hx => absurd hx.2 (not_le.mpr h)

/-! ## The start of a visit -/

theorem start_spec (hinv : Visited vars useMap active st) (hV : V ∈ vars) (hneg : st.dfs V < 0)
    (hreach : ∀ g ∈ active, Relation.ReflTransGen (Uses useMap) g V) :
    Visited vars useMap (V :: active) (start V st) ∧ Keeps vars st (start V st) := by
  have hnot : ¬ Seen vars st V := not_seen_of_neg hneg
  have hVc : V ∉ st.inComponent := fun h => hnot (hinv.component_seen V h)
  have hdfsV : (start V st).dfs V = st.index := Function.update_self ..
  have hdfs : ∀ {x}, x ≠ V → (start V st).dfs x = st.dfs x := fun hx => Function.update_of_ne hx ..
  have hrootV : (start V st).root V = V := Function.update_self ..
  have hroot : ∀ {x}, x ≠ V → (start V st).root x = st.root x :=
    fun hx => Function.update_of_ne hx ..
  have hne : ∀ {x}, Seen vars st x → x ≠ V := by
    rintro x hx rfl
    exact hnot hx
  have hseen : ∀ {x}, Seen vars (start V st) x ↔ Seen vars st x ∨ x = V := by
    intro x
    by_cases hx : x = V
    · subst hx
      exact iff_of_true ⟨hV, by rw [hdfsV]; exact Int.natCast_nonneg _⟩ (Or.inr rfl)
    · rw [Seen, hdfs hx, or_iff_left hx]
      exact Iff.rfl
  have hlive : ∀ {x}, Live vars (start V st) x ↔ Live vars st x ∨ x = V := by
    intro x
    rw [Live, hseen]
    constructor
    · rintro ⟨hx | hx, hc⟩
      · exact Or.inl ⟨hx, hc⟩
      · exact Or.inr hx
    · rintro (hx | rfl)
      · exact ⟨Or.inl hx.1, hx.2⟩
      · exact ⟨Or.inr rfl, hVc⟩
  have hstackLive : ∀ {x}, x ∈ st.stack → Live vars st x := fun hx => ((hinv.stack_iff _).mp hx).1
  refine ⟨⟨?_, ?_, ?_, ?_, ?_, hinv.closed, ?_, ?_, ?_, ?_, ?_⟩, ⟨?_, ?_, fun _ _ => Iff.rfl, ?_,
    Nat.le_succ _⟩⟩
  · intro x hx
    have hindex : ((start V st).index : Int) = st.index + 1 := rfl
    by_cases hxV : x = V
    · rw [hxV, hdfsV, hindex]
      omega
    · rw [hdfs hxV, hindex]
      have := hinv.dfs_lt x hx
      omega
  · intro x y hx hy hxy
    rw [hseen] at hx hy
    obtain hx | rfl := hx <;> obtain hy | rfl := hy
    · rw [hdfs (hne hx), hdfs (hne hy)] at hxy
      exact hinv.dfs_inj x y hx hy hxy
    · rw [hdfs (hne hx), hdfsV] at hxy
      exact absurd hxy (hinv.dfs_lt x hx.1).ne
    · rw [hdfsV, hdfs (hne hy)] at hxy
      exact absurd hxy.symm (hinv.dfs_lt y hy.1).ne
    · rfl
  · intro x
    show x ∈ st.stack ↔ _
    rw [hinv.stack_iff, hlive, List.mem_cons, not_or]
    constructor
    · rintro ⟨hx, hg⟩
      exact ⟨Or.inl hx, hne hx.1, hg⟩
    · rintro ⟨hx, hxV, hg⟩
      exact ⟨hx.resolve_right hxV, hg⟩
  · intro x hx
    rw [hlive]
    obtain rfl | hx := List.mem_cons.mp hx
    · exact Or.inr rfl
    · exact Or.inl (hinv.active_live x hx)
  · intro x hx
    exact hseen.mpr (Or.inl (hinv.component_seen x hx))
  · intro x hx y hxy
    exact hseen.mpr (Or.inl (hinv.finished x hx y hxy))
  · intro x hx
    obtain hx | rfl := hlive.mp hx
    · obtain ⟨hr, hle, hreach⟩ := hinv.root x hx
      rw [hroot (hne hx.1), hdfs (hne hr.1), hdfs (hne hx.1)]
      exact ⟨hlive.mpr (Or.inl hr), hle, hreach⟩
    · rw [hrootV]
      exact ⟨hx, le_refl _, Relation.ReflTransGen.refl⟩
  · intro x y hx hy hxy
    rw [hlive] at hx hy
    obtain hx | rfl := hx <;> obtain hy | rfl := hy
    · rw [hdfs (hne hx.1), hdfs (hne hy.1)] at hxy
      exact hinv.upward x y hx hy hxy
    · -- What is in no component reaches the new variable through a variable being visited.
      by_cases hg : x ∈ active
      · exact hreach x hg
      · obtain ⟨g, hg, -, hxg⟩ := hinv.downward x ((hinv.stack_iff x).mpr ⟨hx, hg⟩)
        exact hxg.trans (hreach g hg)
    · rw [hdfsV, hdfs (hne hy.1)] at hxy
      exact absurd (hinv.dfs_lt y hy.1.1) (not_lt.mpr hxy)
    · exact Relation.ReflTransGen.refl
  · intro x hx
    obtain ⟨g, hg, hle, hxg⟩ := hinv.downward x hx
    refine ⟨g, List.mem_cons_of_mem _ hg, ?_, hxg⟩
    rw [hdfs (hne (hinv.active_live g hg).1), hdfs (hne (hstackLive hx).1)]
    exact hle
  · intro x hx y hxy hy
    have hxl := hstackLive hx
    have hys := hinv.finished x hx y hxy
    rw [hroot (hne hxl.1), hdfs (hne (hinv.root x hxl).1.1), hdfs (hne hys)]
    exact hinv.root_edge x hx y hxy ⟨hys, hy.2⟩
  · exact fun x hx => hdfs (hne hx)
  · exact fun x hx => hroot (hne hx)
  · intro x _ hx
    by_cases hxV : x = V
    · rw [hxV, hdfsV]
      exact Or.inr (le_refl _)
    · rw [hdfs hxV]
      exact Or.inl hx

/-! ## The visit of a sink -/

@[simp] theorem lower_dfs : (lower V w st).dfs = st.dfs := by unfold lower; split <;> rfl
@[simp] theorem lower_index : (lower V w st).index = st.index := by unfold lower; split <;> rfl
@[simp] theorem lower_stack : (lower V w st).stack = st.stack := by unfold lower; split <;> rfl
@[simp] theorem lower_inComponent : (lower V w st).inComponent = st.inComponent := by
  unfold lower; split <;> rfl
@[simp] theorem lower_components : (lower V w st).components = st.components := by
  unfold lower; split <;> rfl
@[simp] theorem lower_worklist : (lower V w st).worklist = st.worklist := by
  unfold lower; split <;> rfl

theorem lower_root_of_ne {x : Nat} (hx : x ≠ V) : (lower V w st).root x = st.root x := by
  unfold lower
  split
  · exact Function.update_of_ne hx ..
  · rfl

/-- The root of the visited variable becomes that of the sink when that is not a higher one. -/
theorem lower_root (hw : Seen vars st w) :
    ((lower V w st).root V = st.root V ∨
      (Live vars st w ∧ (lower V w st).root V = st.root w)) ∧
      st.dfs ((lower V w st).root V) ≤ st.dfs (st.root V) ∧
      (Live vars st w → st.dfs ((lower V w st).root V) ≤ st.dfs (st.root w)) := by
  unfold lower
  split
  case isTrue h =>
    simp only [Function.update_self]
    exact ⟨Or.inr ⟨⟨hw, h.1⟩, trivial⟩, h.2, fun _ => le_refl _⟩
  case isFalse h =>
    refine ⟨Or.inl rfl, le_refl _, fun hlive => ?_⟩
    rw [not_and, ge_iff_le, not_le] at h
    exact (h hlive.2).le

theorem lower_visited (hinv : Visited vars useMap (V :: active) st) (hw : Seen vars st w)
    (hVw : Uses useMap V w) : Visited vars useMap (V :: active) (lower V w st) := by
  have hlive : ∀ x, Live vars (lower V w st) x ↔ Live vars st x := by
    intro x
    rw [Live, Live, Seen, Seen, lower_dfs, lower_inComponent]
  have hseen : ∀ x, Seen vars (lower V w st) x ↔ Seen vars st x := by
    intro x
    rw [Seen, Seen, lower_dfs]
  have hVstack : V ∉ st.stack := fun h => ((hinv.stack_iff V).mp h).2 List.mem_cons_self
  obtain ⟨hroot, hle, -⟩ := lower_root (V := V) hw
  constructor
  case dfs_lt => simpa using hinv.dfs_lt
  case dfs_inj => simpa only [hseen, lower_dfs] using hinv.dfs_inj
  case stack_iff => simpa only [hlive, lower_stack] using hinv.stack_iff
  case active_live => simpa only [hlive] using hinv.active_live
  case component_seen => simpa only [hseen, lower_inComponent] using hinv.component_seen
  case closed => simpa only [lower_inComponent] using hinv.closed
  case finished => simpa only [hseen, lower_stack] using hinv.finished
  case upward => simpa only [hlive, lower_dfs] using hinv.upward
  case downward => simpa only [lower_stack, lower_dfs] using hinv.downward
  case root =>
    intro x hx
    rw [hlive] at hx
    rw [hlive, lower_dfs]
    by_cases hxV : x = V
    · subst hxV
      obtain ⟨hr, hle', hreach⟩ := hinv.root x hx
      refine hroot.elim (fun h => ?_) (fun ⟨hwl, h⟩ => ?_)
      · rw [h]
        exact ⟨hr, hle', hreach⟩
      · obtain ⟨hrw, -, hreachw⟩ := hinv.root w hwl
        refine ⟨h ▸ hrw, hle.trans hle', ?_⟩
        rw [h]
        exact Relation.ReflTransGen.head hVw hreachw
    · rw [lower_root_of_ne hxV]
      exact hinv.root x hx
  case root_edge =>
    intro x hx y hxy hy
    rw [lower_stack] at hx
    rw [hlive] at hy
    have hxV : x ≠ V := fun h => hVstack (h ▸ hx)
    rw [lower_root_of_ne hxV, lower_dfs]
    exact hinv.root_edge x hx y hxy hy

theorem lower_parts (h : Parts useMap st) : Parts useMap (lower V w st) := by
  constructor
  case mem_iff => simpa using h.mem_iff
  case component => simpa using h.component
  case empty => simpa using h.empty
  case ordered => simpa using h.ordered

theorem lower_keeps (h : Keeps vars st₀ st) (hV : ¬ Seen vars st₀ V) :
    Keeps vars st₀ (lower V w st) := by
  constructor
  case dfs_eq => simpa using h.dfs_eq
  case component_iff => simpa using h.component_iff
  case dfs_new => simpa using h.dfs_new
  case index_le => simpa using h.index_le
  case root_eq =>
    intro x hx
    have hxV : x ≠ V := fun hxV => hV (hxV ▸ hx)
    rw [lower_root_of_ne hxV]
    exact h.root_eq x hx

/-! ## The end of a visit -/

/-- What holds in the visit of a variable after some of its sinks: all numbers that they lead to
outside of the components are not below that of the root. -/
structure Visiting (vars : List Nat) (useMap : UseMap) (active : List Nat) (V : Nat) (st₀ : State)
    (sinks : Nat → Prop) (st : State) : Prop where
  visited : Visited vars useMap (V :: active) st
  parts : Parts useMap st
  keeps : Keeps vars st₀ st
  dfs_eq : st.dfs V = st₀.index
  stack : ∃ new, st.stack = new ++ st₀.stack ∧ (∀ x ∈ new, st₀.dfs x < 0) ∧
    ∀ x ∈ new, st.dfs (st.root V) ≤ st.dfs (st.root x)
  edges : ∀ y, sinks y → Seen vars st y ∧ (Live vars st y → st.dfs (st.root V) ≤ st.dfs y)

/-- What the visit of a variable leaves. -/
structure Visit (vars : List Nat) (useMap : UseMap) (active : List Nat) (V : Nat) (st₀ st : State) :
    Prop where
  visited : Visited vars useMap active st
  parts : Parts useMap st
  keeps : Keeps vars st₀ st
  seen : Seen vars st V
  stack : ∃ new, st.stack = new ++ st₀.stack ∧ (∀ x ∈ new, st₀.dfs x < 0) ∧
    (V ∈ st.inComponent → new = []) ∧
    (V ∉ st.inComponent → ∀ x ∈ new, st.dfs (st.root V) ≤ st.dfs (st.root x))

/-- The loop pops what was pushed in the visit. -/
theorem popComponent_eq {new old : List Nat} (st : State) (hnew : ∀ x ∈ new, st.dfs V < st.dfs x)
    (hold : ∀ x ∈ old, ¬ st.dfs V < st.dfs x) :
    popComponent V (new ++ old) st = { st with
      stack := old
      inComponent := new.toFinset ∪ st.inComponent
      components := Function.update st.components V (new.toFinset ∪ st.components V) } := by
  induction new generalizing st with
  | nil =>
    cases old with
    | nil => simp [popComponent]
    | cons node rest =>
      rw [List.nil_append, popComponent, if_neg (hold node List.mem_cons_self)]
      simp
  | cons node new ih =>
    rw [List.cons_append, popComponent, if_pos (hnew node List.mem_cons_self), ih]
    · simp only [Function.update_self, Function.update_idem, List.toFinset_cons,
        Finset.insert_union, Finset.union_insert]
    · exact fun x hx => hnew x (List.mem_cons_of_mem _ hx)
    · exact hold

/-- Where the numbers of the live variables stand when all sinks have been visited. -/
theorem Visiting.live_cases {sinks : Nat → Prop} (h : Visiting vars useMap active V st₀ sinks st)
    (h₀ : Visited vars useMap active st₀) {new : List Nat} (hstack : st.stack = new ++ st₀.stack)
    (hnew : ∀ x ∈ new, st₀.dfs x < 0) :
    (∀ x ∈ new, st.dfs V < st.dfs x) ∧ (∀ x ∈ st₀.stack, st.dfs x < st.dfs V) ∧
      (∀ x ∈ active, st.dfs x < st.dfs V) ∧
      ∀ x, Live vars st x → x = V ∨ x ∈ active ∨ x ∈ new ∨ x ∈ st₀.stack := by
  have hbefore : ∀ x, Live vars st₀ x → st.dfs x < st.dfs V := by
    intro x hx
    rw [h.keeps.dfs_eq x hx.1, h.dfs_eq]
    exact h₀.dfs_lt x hx.1.1
  refine ⟨fun x hx => ?_, fun x hx => ?_, fun x hx => ?_, fun x hx => ?_⟩
  · have hxs : x ∈ st.stack := by
      rw [hstack]
      exact List.mem_append_left _ hx
    obtain ⟨hlive, hactive⟩ := (h.visited.stack_iff x).mp hxs
    have hxV : x ≠ V := fun hxV => hactive (hxV ▸ List.mem_cons_self)
    have hle : (st₀.index : Int) ≤ st.dfs x :=
      (h.keeps.dfs_new x hlive.1.1 (hnew x hx)).resolve_left (not_lt.mpr hlive.1.2)
    rw [← h.dfs_eq] at hle
    refine lt_of_le_of_ne hle fun heq => hxV ?_
    have hV := h.visited.active_live V List.mem_cons_self
    exact (h.visited.dfs_inj V x hV.1 hlive.1 heq).symm
  · exact hbefore x ((h₀.stack_iff x).mp hx).1
  · exact hbefore x (h₀.active_live x hx)
  · by_cases hxs : x ∈ st.stack
    · rw [hstack, List.mem_append] at hxs
      exact Or.inr (Or.inr hxs)
    · have hxa : x ∈ V :: active := by
        by_contra hxa
        exact hxs ((h.visited.stack_iff x).mpr ⟨hx, hxa⟩)
      obtain hxV | hxa := List.mem_cons.mp hxa
      · exact Or.inl hxV
      · exact Or.inr (Or.inl hxa)

/-- A variable that is its own root forms a component with what was pushed since. -/
theorem Visiting.component (h : Visiting vars useMap active V st₀ (Uses useMap V) st)
    (h₀ : Visited vars useMap active st₀) {new : List Nat} (hstack : st.stack = new ++ st₀.stack)
    (hnew : ∀ x ∈ new, st₀.dfs x < 0) (hroots : ∀ x ∈ new, st.dfs (st.root V) ≤ st.dfs (st.root x))
    (hroot : st.root V = V) :
    (∀ x, (x = V ∨ x ∈ new) → ∀ y, Uses useMap x y →
      (y = V ∨ y ∈ new) ∨ y ∈ st.inComponent) ∧
      ∀ y, (y = V ∨ y ∈ new) ↔ SameComponent (Uses useMap) V y := by
  obtain ⟨hnewlt, holdlt, hactlt, hcases⟩ := h.live_cases h₀ hstack hnew
  have hV := h.visited.active_live V List.mem_cons_self
  have hstk : ∀ {x}, x ∈ new → x ∈ st.stack := by
    intro x hx
    rw [hstack]
    exact List.mem_append_left _ hx
  have hstep : ∀ x, (x = V ∨ x ∈ new) → ∀ y, Uses useMap x y →
      (y = V ∨ y ∈ new) ∨ y ∈ st.inComponent := by
    intro x hx y hxy
    by_cases hyc : y ∈ st.inComponent
    · exact Or.inr hyc
    left
    -- An edge out of a component leads to a number that is not below that of the root.
    have hle : Live vars st y ∧ st.dfs V ≤ st.dfs y := by
      obtain rfl | hx := hx
      · obtain ⟨hys, hle⟩ := h.edges y hxy
        rw [hroot] at hle
        exact ⟨⟨hys, hyc⟩, hle ⟨hys, hyc⟩⟩
      · have hy : Live vars st y := ⟨h.visited.finished x (hstk hx) y hxy, hyc⟩
        have hxV := hroots x hx
        rw [hroot] at hxV
        exact ⟨hy, hxV.trans (h.visited.root_edge x (hstk hx) y hxy hy)⟩
    obtain hyV | hya | hyn | hyo := hcases y hle.1
    · exact Or.inl hyV
    · exact absurd (hactlt y hya) (not_lt.mpr hle.2)
    · exact Or.inr hyn
    · exact absurd (holdlt y hyo) (not_lt.mpr hle.2)
  refine ⟨hstep, ?_⟩
  let N : Set Nat := fun x => x = V ∨ x ∈ new
  let B : Set Nat := fun x => x ∈ st.inComponent
  have hNB : ∀ x ∈ N, ∀ y, Uses useMap x y → y ∈ N ∪ B := hstep
  have hB : ∀ x ∈ B, ∀ y, Uses useMap x y → y ∈ B := h.visited.closed
  have hclosed : ∀ x ∈ N ∪ B, ∀ y, Uses useMap x y → y ∈ N ∪ B := by
    rintro x (hx | hx) y hxy
    · exact hNB x hx y hxy
    · exact Or.inr (hB x hx y hxy)
  refine component_of_closed (N := N) (Or.inl rfl) hNB hB hV.2 ?_ ?_
  · rintro x (rfl | hx)
    · exact Relation.ReflTransGen.refl
    · have hxl := ((h.visited.stack_iff x).mp (hstk hx)).1
      exact h.visited.upward V x hV hxl (hnewlt x hx).le
  · rintro x (rfl | hx)
    · exact Relation.ReflTransGen.refl
    · obtain ⟨g, hg, -, hxg⟩ := h.visited.downward x (hstk hx)
      have hgl := h.visited.active_live g hg
      obtain (hgV | hgn) | hgB := mem_of_reach hclosed (Or.inl (Or.inr hx)) hxg
      · exact hgV ▸ hxg
      · exact absurd hg ((h.visited.stack_iff g).mp (hstk hgn)).2
      · exact absurd hgB hgl.2

/-- Neither of two keys is below the other one when they are the same. -/
theorem same_key_iff (a b : Nat) : decide (a < b) = decide (b < a) ↔ a = b := by
  rw [decide_eq_decide]
  omega

/-- The end of the visit of a variable that is its own root. -/
theorem close_root (h : Visiting vars useMap active V st₀ (Uses useMap V) st)
    (h₀ : Visited vars useMap active st₀) (hroot : st.root V = V) :
    Visit vars useMap active V st₀ (close V st) := by
  obtain ⟨new, hstack, hnew, hroots⟩ := h.stack
  obtain ⟨hnewlt, holdlt, hactlt, hcases⟩ := h.live_cases h₀ hstack hnew
  obtain ⟨hstep, hcomponent⟩ := h.component h₀ hstack hnew hroots hroot
  have hV := h.visited.active_live V List.mem_cons_self
  have hVwork : V ∉ st.worklist := by
    intro hmem
    have hVc := (h.parts.component V hmem V).mpr (SameComponent.refl V)
    exact hV.2 ((h.parts.mem_iff V).mpr ⟨V, hmem, hVc⟩)
  have hclose : close V st = { st with
      worklist := st.worklist ++ [V]
      stack := st₀.stack
      inComponent := new.toFinset ∪ insert V st.inComponent
      components := Function.update st.components V (new.toFinset ∪ {V}) } := by
    rw [close, if_pos ((same_key_iff _ _).mpr hroot), hstack, popComponent_eq]
    · simp only [Function.update_self, Function.update_idem, h.parts.empty V hVwork,
        insert_empty_eq]
    · exact hnewlt
    · exact fun x hx => not_lt.mpr (holdlt x hx).le
  have hmemc : ∀ x, x ∈ (close V st).inComponent ↔ (x = V ∨ x ∈ new) ∨ x ∈ st.inComponent := by
    intro x
    simp only [hclose, Finset.mem_union, List.mem_toFinset, Finset.mem_insert]
    tauto
  have hcompV : ∀ x, x ∈ (close V st).components V ↔ x = V ∨ x ∈ new := by
    intro x
    simp only [hclose, Function.update_self, Finset.mem_union, List.mem_toFinset,
      Finset.mem_singleton]
    exact or_comm
  have hcompne : ∀ {r}, r ≠ V → (close V st).components r = st.components r := by
    intro r hr
    simp only [hclose]
    exact Function.update_of_ne hr ..
  have hlive : ∀ x, Live vars (close V st) x ↔ Live vars st x ∧ ¬ (x = V ∨ x ∈ new) := by
    intro x
    have hdfs : (close V st).dfs = st.dfs := by rw [hclose]
    rw [Live, Live, Seen, Seen, hmemc, hdfs]
    tauto
  have hwork : (close V st).worklist = st.worklist ++ [V] := by rw [hclose]
  have hbelow : ∀ {x}, Live vars st x → ¬ (x = V ∨ x ∈ new) → st.dfs x < st.dfs V := by
    intro x hx hno
    obtain hxV | hxa | hxn | hxo := hcases x hx
    · exact absurd (Or.inl hxV) hno
    · exact hactlt x hxa
    · exact absurd (Or.inr hxn) hno
    · exact holdlt x hxo
  have hnot : ∀ {x}, st.dfs x < st.dfs V → ¬ (x = V ∨ x ∈ new) := by
    rintro x hx (rfl | hxn)
    · exact lt_irrefl _ hx
    · exact absurd (hnewlt x hxn) (not_lt.mpr hx.le)
  have hold : ∀ {x}, x ∈ st₀.stack → x ∈ st.stack := by
    intro x hx
    rw [hstack]
    exact List.mem_append_right _ hx
  have hvisited : Visited vars useMap active (close V st) := by
    constructor
    case dfs_lt => simpa only [hclose] using h.visited.dfs_lt
    case dfs_inj =>
      intro x y hx hy hxy
      rw [Seen, hclose] at hx hy
      rw [hclose] at hxy
      exact h.visited.dfs_inj x y hx hy hxy
    case stack_iff =>
      intro x
      have hstk : (close V st).stack = st₀.stack := by rw [hclose]
      rw [hstk, hlive]
      constructor
      · intro hx
        obtain ⟨hxl, hxa⟩ := (h.visited.stack_iff x).mp (hold hx)
        exact ⟨⟨hxl, hnot (holdlt x hx)⟩, fun hxa' => hxa (List.mem_cons_of_mem _ hxa')⟩
      · rintro ⟨⟨hxl, hno⟩, hxa⟩
        obtain hxV | hxa' | hxn | hxo := hcases x hxl
        · exact absurd (Or.inl hxV) hno
        · exact absurd hxa' hxa
        · exact absurd (Or.inr hxn) hno
        · exact hxo
    case active_live =>
      intro x hx
      exact (hlive x).mpr ⟨h.visited.active_live x (List.mem_cons_of_mem _ hx), hnot (hactlt x hx)⟩
    case component_seen =>
      intro x hx
      rw [Seen, hclose]
      obtain (rfl | hxn) | hxc := (hmemc x).mp hx
      · exact hV.1
      · refine ((h.visited.stack_iff x).mp ?_).1.1
        rw [hstack]
        exact List.mem_append_left _ hxn
      · exact h.visited.component_seen x hxc
    case closed =>
      intro x hx y hxy
      rw [hmemc] at hx ⊢
      obtain hx | hx := hx
      · exact hstep x hx y hxy
      · exact Or.inr (h.visited.closed x hx y hxy)
    case finished =>
      intro x hx y hxy
      rw [hclose] at hx
      rw [Seen, hclose]
      exact h.visited.finished x (hold hx) y hxy
    case root =>
      intro x hx
      obtain ⟨hxl, hno⟩ := (hlive x).mp hx
      obtain ⟨hr, hle, hreach⟩ := h.visited.root x hxl
      have hrlt : st.dfs (st.root x) < st.dfs V := lt_of_le_of_lt hle (hbelow hxl hno)
      have hrootx : (close V st).root = st.root := by rw [hclose]
      have hdfs : (close V st).dfs = st.dfs := by rw [hclose]
      rw [hrootx, hdfs]
      exact ⟨(hlive _).mpr ⟨hr, hnot hrlt⟩, hle, hreach⟩
    case upward =>
      intro x y hx hy hxy
      rw [hclose] at hxy
      exact h.visited.upward x y ((hlive x).mp hx).1 ((hlive y).mp hy).1 hxy
    case downward =>
      intro x hx
      rw [hclose] at hx
      obtain ⟨g, hg, hle, hxg⟩ := h.visited.downward x (hold hx)
      have hgV : g ≠ V := by
        rintro rfl
        exact absurd (holdlt x hx) (not_lt.mpr hle)
      rw [hclose]
      exact ⟨g, (List.mem_cons.mp hg).resolve_left hgV, hle, hxg⟩
    case root_edge =>
      intro x hx y hxy hy
      rw [hclose] at hx ⊢
      exact h.visited.root_edge x (hold hx) y hxy ((hlive y).mp hy).1
  have hparts : Parts useMap (close V st) := by
    constructor
    case mem_iff =>
      intro x
      rw [hmemc, hwork, h.parts.mem_iff]
      constructor
      · rintro (hx | ⟨r, hr, hx⟩)
        · exact ⟨V, by simp, (hcompV x).mpr hx⟩
        · have hrV : r ≠ V := fun hrV => hVwork (hrV ▸ hr)
          exact ⟨r, List.mem_append_left _ hr, by rwa [hcompne hrV]⟩
      · rintro ⟨r, hr, hx⟩
        obtain hr | hr := List.mem_append.mp hr
        · have hrV : r ≠ V := fun hrV => hVwork (hrV ▸ hr)
          exact Or.inr ⟨r, hr, by rwa [hcompne hrV] at hx⟩
        · obtain rfl := List.mem_singleton.mp hr
          exact Or.inl ((hcompV x).mp hx)
    case component =>
      intro r hr y
      rw [hwork] at hr
      obtain hr | hr := List.mem_append.mp hr
      · have hrV : r ≠ V := fun hrV => hVwork (hrV ▸ hr)
        rw [hcompne hrV]
        exact h.parts.component r hr y
      · obtain rfl := List.mem_singleton.mp hr
        rw [hcompV]
        exact hcomponent y
    case empty =>
      intro r hr
      rw [hwork, List.mem_append, not_or] at hr
      rw [hcompne (fun hrV => hr.2 (List.mem_singleton.mpr hrV))]
      exact h.parts.empty r hr.1
    case ordered =>
      rw [hwork, List.pairwise_append]
      refine ⟨?_, List.pairwise_singleton _ _, ?_⟩
      · refine h.parts.ordered.imp_of_mem fun {r r'} hr hr' hrr => ?_
        have hrV : r ≠ V := fun hrV => hVwork (hrV ▸ hr)
        have hrV' : r' ≠ V := fun hrV => hVwork (hrV ▸ hr')
        rw [hcompne hrV, hcompne hrV']
        exact hrr
      · intro r hr r' hr'
        obtain rfl := List.mem_singleton.mp hr'
        have hrV : r ≠ r' := fun hrV => hVwork (hrV ▸ hr)
        refine ⟨hrV, fun x hx y hy hxy => ?_⟩
        -- An edge from an older component stays in the older components.
        rw [hcompne hrV] at hx
        have hxc := (h.parts.mem_iff x).mpr ⟨r, hr, hx⟩
        have hyc := h.visited.closed x hxc y hxy
        obtain rfl | hyn := (hcompV y).mp hy
        · exact hV.2 hyc
        · have hys : y ∈ st.stack := by
            rw [hstack]
            exact List.mem_append_left _ hyn
          exact ((h.visited.stack_iff y).mp hys).1.2 hyc
  have hdfs : (close V st).dfs = st.dfs := by rw [hclose]
  refine ⟨hvisited, hparts, ⟨?_, ?_, fun x hx => ?_, ?_, ?_⟩, ?_, [], ?_, ?_, fun _ => rfl, ?_⟩
  · rw [hdfs]
    exact h.keeps.dfs_eq
  · rw [hclose]
    exact h.keeps.root_eq
  · rw [hmemc, ← h.keeps.component_iff x hx]
    refine or_iff_right (hnot ?_)
    rw [h.keeps.dfs_eq x hx, h.dfs_eq]
    exact h₀.dfs_lt x hx.1
  · rw [hdfs]
    exact h.keeps.dfs_new
  · rw [hclose]
    exact h.keeps.index_le
  · rw [Seen, hdfs]
    exact hV.1
  · rw [hclose]
    rfl
  · exact fun x hx => absurd hx List.not_mem_nil
  · exact fun _ x hx => absurd hx List.not_mem_nil

/-- The end of the visit of a variable that has a root of a lower number. -/
theorem close_stack (h : Visiting vars useMap active V st₀ (Uses useMap V) st)
    (h₀ : Visited vars useMap active st₀) (hneg : st₀.dfs V < 0) (hroot : st.root V ≠ V) :
    Visit vars useMap active V st₀ (close V st) := by
  obtain ⟨new, hstack, hnew, hroots⟩ := h.stack
  have hV := h.visited.active_live V List.mem_cons_self
  have hclose : close V st = { st with stack := V :: st.stack } :=
    if_neg fun hkey => hroot ((same_key_iff _ _).mp hkey)
  obtain ⟨hrl, hrle, hVr⟩ := h.visited.root V hV
  have hrlt : st.dfs (st.root V) < st.dfs V :=
    lt_of_le_of_ne hrle fun heq => hroot (h.visited.dfs_inj _ _ hrl.1 hV.1 heq)
  have hVactive : V ∉ active := by
    intro hVa
    exact not_seen_of_neg hneg (h₀.active_live V hVa).1
  -- The root of the variable, and with it the variable, reaches one whose visit has not ended.
  have hdown : ∃ g ∈ active, st.dfs g ≤ st.dfs V ∧
      Relation.ReflTransGen (Uses useMap) V g := by
    by_cases hra : st.root V ∈ V :: active
    · exact ⟨st.root V, (List.mem_cons.mp hra).resolve_left hroot, hrle, hVr⟩
    · obtain ⟨g, hg, hle, hrg⟩ := h.visited.downward _ ((h.visited.stack_iff _).mpr ⟨hrl, hra⟩)
      have hgV : g ≠ V := by
        rintro rfl
        exact absurd hrlt (not_lt.mpr hle)
      exact ⟨g, (List.mem_cons.mp hg).resolve_left hgV, hle.trans hrle, hVr.trans hrg⟩
  rw [hclose]
  refine ⟨⟨h.visited.dfs_lt, h.visited.dfs_inj, fun x => ?_, fun x hx => ?_,
    h.visited.component_seen, h.visited.closed, fun x hx y hxy => ?_, h.visited.root,
    h.visited.upward, fun x hx => ?_, fun x hx y hxy hy => ?_⟩,
    ⟨h.parts.mem_iff, h.parts.component, h.parts.empty, h.parts.ordered⟩,
    ⟨h.keeps.dfs_eq, h.keeps.root_eq, h.keeps.component_iff, h.keeps.dfs_new, h.keeps.index_le⟩,
    hV.1, V :: new, ?_, fun x hx => ?_, fun hVc => absurd hVc hV.2, fun _ x hx => ?_⟩
  · show x ∈ V :: st.stack ↔ Live vars st x ∧ x ∉ active
    rw [List.mem_cons, h.visited.stack_iff, List.mem_cons, not_or]
    constructor
    · rintro (rfl | ⟨hx, -, hxa⟩)
      · exact ⟨hV, hVactive⟩
      · exact ⟨hx, hxa⟩
    · rintro ⟨hx, hxa⟩
      exact (em (x = V)).imp_right fun hxV => ⟨hx, hxV, hxa⟩
  · exact h.visited.active_live x (List.mem_cons_of_mem _ hx)
  · obtain rfl | hx := List.mem_cons.mp hx
    · exact (h.edges y hxy).1
    · exact h.visited.finished x hx y hxy
  · obtain rfl | hx := List.mem_cons.mp hx
    · exact hdown
    · obtain ⟨g, hg, hle, hxg⟩ := h.visited.downward x hx
      obtain rfl | hg := List.mem_cons.mp hg
      · obtain ⟨g', hg', hle', hgg⟩ := hdown
        exact ⟨g', hg', hle'.trans hle, hxg.trans hgg⟩
      · exact ⟨g, hg, hle, hxg⟩
  · obtain rfl | hx := List.mem_cons.mp hx
    · exact (h.edges y hxy).2 hy
    · exact h.visited.root_edge x hx y hxy hy
  · show V :: st.stack = _
    rw [hstack, List.cons_append]
  · obtain rfl | hx := List.mem_cons.mp hx
    · exact hneg
    · exact hnew x hx
  · obtain rfl | hx := List.mem_cons.mp hx
    · exact le_refl _
    · exact hroots x hx

theorem close_spec (h : Visiting vars useMap active V st₀ (Uses useMap V) st)
    (h₀ : Visited vars useMap active st₀) (hneg : st₀.dfs V < 0) :
    Visit vars useMap active V st₀ (close V st) := by
  by_cases hroot : st.root V = V
  · exact close_root h h₀ hroot
  · exact close_stack h h₀ hneg hroot

/-! ## Whole visits -/

/-- A sink that has been seen before is left as a visit would leave it. -/
theorem visit_of_seen (h : Visited vars useMap active st) (hparts : Parts useMap st)
    (hw : Seen vars st w) : Visit vars useMap active w st st :=
  ⟨h, hparts, Keeps.refl st, hw, [], rfl, fun _ hx => absurd hx List.not_mem_nil, fun _ => rfl,
    fun _ _ hx => absurd hx List.not_mem_nil⟩

/-- After the visit of a sink and the comparison of the roots, the sink counts as visited. -/
theorem Visiting.sink {sinks : Nat → Prop} (h : Visiting vars useMap active V st₀ sinks st)
    (hneg : st₀.dfs V < 0) (hv : Visit vars useMap (V :: active) w st st')
    (hVw : Uses useMap V w) :
    Visiting vars useMap active V st₀ (fun y => sinks y ∨ y = w) (lower V w st') := by
  have hV := h.visited.active_live V List.mem_cons_self
  have hV' := hv.visited.active_live V List.mem_cons_self
  obtain ⟨hrl, -, -⟩ := h.visited.root V hV
  -- The root of the variable is as before the visit of the sink.
  have hrootV : st'.dfs (st'.root V) = st.dfs (st.root V) := by
    rw [hv.keeps.root_eq V hV.1, hv.keeps.dfs_eq _ hrl.1]
  obtain ⟨hroot, hle, hlew⟩ := lower_root (V := V) hv.seen
  have hVnew : ∀ {x}, x ∈ st'.stack → (lower V w st').root x = st'.root x := by
    intro x hx
    refine lower_root_of_ne ?_
    rintro rfl
    exact ((hv.visited.stack_iff x).mp hx).2 List.mem_cons_self
  obtain ⟨new, hstack, hnew, hroots⟩ := h.stack
  obtain ⟨new', hstack', hnew', hnil, hroots'⟩ := hv.stack
  refine ⟨lower_visited hv.visited hv.seen hVw, lower_parts hv.parts,
    lower_keeps (h.keeps.trans hv.keeps) (not_seen_of_neg hneg), ?_,
    ⟨new' ++ new, ?_, ?_, ?_⟩, ?_⟩
  · rw [lower_dfs, hv.keeps.dfs_eq V hV.1, h.dfs_eq]
  · rw [lower_stack, hstack', hstack, List.append_assoc]
  · intro x hx
    obtain hx | hx := List.mem_append.mp hx
    · by_contra hge
      have hxs' : x ∈ st'.stack := by
        rw [hstack']
        exact List.mem_append_left _ hx
      have hxv := ((hv.visited.stack_iff x).mp hxs').1.1.1
      have hseen : Seen vars st x := h.keeps.seen ⟨hxv, not_lt.mp hge⟩
      exact not_seen_of_neg (hnew' x hx) hseen
    · exact hnew x hx
  · intro x hx
    have hxs' : x ∈ st'.stack := by
      rw [hstack', hstack, ← List.append_assoc]
      exact List.mem_append_left _ hx
    rw [hVnew hxs', lower_dfs]
    obtain hx | hx := List.mem_append.mp hx
    · have hwc : w ∉ st'.inComponent := by
        intro hwc
        rw [hnil hwc] at hx
        exact absurd hx List.not_mem_nil
      exact (hlew ⟨hv.seen, hwc⟩).trans (hroots' hwc x hx)
    · have hxs : x ∈ st.stack := by
        rw [hstack]
        exact List.mem_append_left _ hx
      have hxl := ((h.visited.stack_iff x).mp hxs).1
      rw [hv.keeps.root_eq x hxl.1, hv.keeps.dfs_eq _ (h.visited.root x hxl).1.1]
      exact hle.trans (hrootV ▸ hroots x hx)
  · intro y hy
    rw [lower_dfs]
    have hlive : Live vars (lower V w st') y ↔ Live vars st' y := by
      rw [Live, Live, Seen, Seen, lower_dfs, lower_inComponent]
    have hseen : Seen vars (lower V w st') y ↔ Seen vars st' y := by
      rw [Seen, Seen, lower_dfs]
    rw [hlive, hseen]
    obtain hy | rfl := hy
    · obtain ⟨hys, hyle⟩ := h.edges y hy
      refine ⟨hv.keeps.seen hys, fun hyl => ?_⟩
      have hyl' : Live vars st y := ⟨hys, fun hc => hyl.2 ((hv.keeps.component_iff y hys).mpr hc)⟩
      rw [hv.keeps.dfs_eq y hys]
      exact hle.trans (hrootV ▸ hyle hyl')
    · exact ⟨hv.seen, fun hyl => (hlew hyl).trans (hv.visited.root y hyl).2.1⟩

/-- The variables that have not been seen. -/
def unseen (vars : List Nat) (st : State) : Nat :=
  (vars.toFinset.filter fun x => st.dfs x < 0).card

theorem unseen_lt (h : Keeps vars st st') (hV : V ∈ vars) (hneg : st.dfs V < 0)
    (hseen : Seen vars st' V) : unseen vars st' < unseen vars st := by
  refine Finset.card_lt_card (Finset.ssubset_iff_of_subset ?_ |>.mpr ⟨V, ?_, ?_⟩)
  · intro x hx
    rw [Finset.mem_filter, List.mem_toFinset] at hx ⊢
    refine ⟨hx.1, ?_⟩
    by_contra hge
    exact not_seen_of_neg hx.2 (h.seen ⟨hx.1, not_lt.mp hge⟩)
  · exact Finset.mem_filter.mpr ⟨List.mem_toFinset.mpr hV, hneg⟩
  · exact fun hx => not_seen_of_neg (Finset.mem_filter.mp hx).2 hseen

variable {order : Finset OpNode → List OpNode}
  (horder : ∀ users op, op ∈ order users ↔ op ∈ users)
  (hat : ∀ x ∈ vars, ∃ users, useMap x = some users)
  (hsinks : ∀ x ∈ vars, ∀ y, Uses useMap x y → y ∈ vars)

include horder hat hsinks in
/-- A visit returns when no more variables are unseen than the bound allows for. -/
theorem visit_spec (fuel : Nat) {V : Nat} {active : List Nat} {st : State} (hV : V ∈ vars)
    (hneg : st.dfs V < 0) (h : Visited vars useMap active st) (hparts : Parts useMap st)
    (hreach : ∀ g ∈ active, Relation.ReflTransGen (Uses useMap) g V)
    (hfuel : unseen vars st ≤ fuel) :
    ∃ st', visit order useMap fuel V st = .ok st' ∧ Visit vars useMap active V st st' := by
  induction fuel generalizing V active st with
  | zero =>
    have hmem : V ∈ vars.toFinset.filter fun x => st.dfs x < 0 :=
      Finset.mem_filter.mpr ⟨List.mem_toFinset.mpr hV, hneg⟩
    exact absurd (Finset.card_pos.mpr ⟨V, hmem⟩) (not_lt.mpr hfuel)
  | succ fuel ih =>
    obtain ⟨users, husers⟩ := hat V hV
    obtain ⟨hstart, hkeeps⟩ := start_spec h hV hneg hreach
    have hloop : ∀ (ops : List OpNode) (sinks : Nat → Prop) (t : State),
        (∀ op ∈ ops, Uses useMap V op.getSink) → Visiting vars useMap active V st sinks t →
        ∃ t', ops.foldlM (fun st op => do
            let sink := op.getSink
            let st ← (if st.dfs sink < 0 then visit order useMap fuel sink st else .ok st)
            .ok (lower V sink st)) t = .ok t' ∧
          Visiting vars useMap active V st (fun y => sinks y ∨ ∃ op ∈ ops, op.getSink = y) t' := by
      intro ops
      induction ops with
      | nil =>
        intro sinks t _ ht
        refine ⟨t, rfl, ht.visited, ht.parts, ht.keeps, ht.dfs_eq, ht.stack, fun y hy => ?_⟩
        refine ht.edges y (hy.resolve_right ?_)
        rintro ⟨op, hop, -⟩
        exact absurd hop List.not_mem_nil
      | cons op ops ihops =>
        intro sinks t hops ht
        have hVw := hops op List.mem_cons_self
        have hVlive := ht.visited.active_live V List.mem_cons_self
        -- The sink is visited, or it has been before.
        obtain ⟨t₁, hrun, hvisit⟩ : ∃ t₁,
            (if t.dfs op.getSink < 0 then visit order useMap fuel op.getSink t else .ok t) =
              .ok t₁ ∧ Visit vars useMap (V :: active) op.getSink t t₁ := by
          have hw := hsinks V hV _ hVw
          by_cases hwneg : t.dfs op.getSink < 0
          · rw [if_pos hwneg]
            refine ih hw hwneg ht.visited ht.parts (fun g hg => ?_) ?_
            · obtain ⟨new, hstack, hnew, -⟩ := ht.stack
              have hgV : t.dfs g ≤ t.dfs V := by
                obtain rfl | hg := List.mem_cons.mp hg
                · exact le_refl _
                · exact ((ht.live_cases h hstack hnew).2.2.1 g hg).le
              exact (ht.visited.upward g V (ht.visited.active_live g hg) hVlive hgV).tail hVw
            · exact Nat.le_of_lt_succ ((unseen_lt ht.keeps hV hneg hVlive.1).trans_le hfuel)
          · rw [if_neg hwneg]
            exact ⟨t, rfl, visit_of_seen ht.visited ht.parts ⟨hw, not_lt.mp hwneg⟩⟩
        have hnext := ht.sink hneg hvisit hVw
        obtain ⟨t', hrest, ht'⟩ := ihops _ _ (fun o ho => hops o (List.mem_cons_of_mem _ ho)) hnext
        refine ⟨t', ?_, ht'.visited, ht'.parts, ht'.keeps, ht'.dfs_eq, ht'.stack, fun y hy => ?_⟩
        · rw [List.foldlM_cons]
          simp only [hrun, ok_bind]
          exact hrest
        · refine ht'.edges y ?_
          obtain hy | ⟨o, ho, rfl⟩ := hy
          · exact Or.inl (Or.inl hy)
          · obtain rfl | ho := List.mem_cons.mp ho
            · exact Or.inl (Or.inr rfl)
            · exact Or.inr ⟨o, ho, rfl⟩
    have hbegin : Visiting vars useMap active V st (fun _ => False) (start V st) :=
      ⟨hstart, ⟨hparts.mem_iff, hparts.component, hparts.empty, hparts.ordered⟩, hkeeps,
        Function.update_self ..,
        ⟨[], rfl, fun x hx => absurd hx List.not_mem_nil, fun x hx => absurd hx List.not_mem_nil⟩,
        fun y hy => hy.elim⟩
    obtain ⟨t, hrun, ht⟩ := hloop (order users) _ _
      (fun op hop => ⟨users, husers, op, (horder users op).mp hop, rfl⟩) hbegin
    refine ⟨close V t, ?_, ?_⟩
    · rw [visit, husers]
      simp only [hrun, ok_bind]
    · refine close_spec ⟨ht.visited, ht.parts, ht.keeps, ht.dfs_eq, ht.stack, fun y hy => ?_⟩ h hneg
      refine ht.edges y (Or.inr ?_)
      obtain ⟨users', husers', op, hop, hsink⟩ := hy
      obtain rfl : users = users' := Option.some.inj (husers.symm.trans husers')
      exact ⟨op, (horder users op).mpr hop, hsink⟩

end Proof

/-! ## The pseudo edges -/

/-- The pseudo edge that is added for an operation. -/
def cdEdge (op : OpNode) : OpNode := OpNode.ControlDepOpNode op.address op.getSink

/-- The operation is a pseudo edge out of the variable. -/
def ControlDep (symbMap : List (Nat × Finset OpNode)) (x : Nat) (op : OpNode) : Prop :=
  ∃ entry ∈ symbMap, entry.1 = x ∧ ∃ o ∈ entry.2, op = cdEdge o

/-- A use edge or a control dependence edge. -/
def Edge (useMap : UseMap) (symbMap : List (Nat × Finset OpNode)) (x y : Nat) : Prop :=
  Uses useMap x y ∨ ∃ entry ∈ symbMap, entry.1 = x ∧ ∃ op ∈ entry.2, op.getSink = y

/-- What the graph's own insertions see to: each variable has an entry in the use map, and each
operation has its sink among the variables. -/
structure Graph (vars : List Nat) (useMap : UseMap) (symbMap : List (Nat × Finset OpNode)) :
    Prop where
  users : ∀ x ∈ vars, ∃ users, useMap x = some users
  sinks : ∀ x ∈ vars, ∀ y, Uses useMap x y → y ∈ vars
  symbolic : ∀ entry ∈ symbMap, entry.1 ∈ vars ∧ ∀ op ∈ entry.2, op.getSink ∈ vars
  plain : ∀ x users, useMap x = some users → ∀ op ∈ users, op.isControlDep = false

section Edges

variable {order : Finset OpNode → List OpNode} {vars : List Nat} {useMap useMap' : UseMap}
  {symbMap : List (Nat × Finset OpNode)}

/-- The use map with the pseudo edges of some entries. -/
structure Added (useMap : UseMap) (symbMap : List (Nat × Finset OpNode)) (useMap' : UseMap) :
    Prop where
  none : ∀ x, useMap x = none → useMap' x = none
  some : ∀ x users, useMap x = some users →
    ∃ users', useMap' x = some users' ∧ ∀ op, op ∈ users' ↔ op ∈ users ∨ ControlDep symbMap x op

/-- The loop over the operations of one entry. -/
theorem addEntry_eq {key : Nat} {users : Finset OpNode} (hkey : key ∈ vars) (ops : List OpNode)
    (huse : useMap key = some users) :
    ops.foldlM (fun useMap op => do
      throwAssert (key ∈ vars) "Variable should be stored in VarNodes map"
      let cdedge := OpNode.ControlDepOpNode op.address op.getSink
      let users := (useMap key).getD ∅
      .ok (Function.update useMap key (some (insert cdedge users)))) useMap =
      (.ok (Function.update useMap key (some ((ops.map cdEdge).toFinset ∪ users))) :
        Except Error UseMap) := by
  induction ops generalizing useMap users with
  | nil =>
    rw [List.foldlM_nil, List.map_nil, List.toFinset_nil, Finset.empty_union, ← huse,
      Function.update_eq_self]
    rfl
  | cons op ops ih =>
    have hstep : (do
        throwAssert (key ∈ vars) "Variable should be stored in VarNodes map"
        let cdedge := OpNode.ControlDepOpNode op.address op.getSink
        let users := (useMap key).getD ∅
        .ok (Function.update useMap key (some (insert cdedge users))) : Except Error UseMap) =
        .ok (Function.update useMap key (some (insert (cdEdge op) users))) := by
      rw [throwAssert_of hkey, huse]
      rfl
    rw [List.foldlM_cons, hstep, ok_bind, ih (Function.update_self ..), Function.update_idem,
      List.map_cons, List.toFinset_cons, Finset.insert_union, Finset.union_insert]

theorem Added.step {entry : Nat × Finset OpNode} {users : Finset OpNode}
    (horder : ∀ users op, op ∈ order users ↔ op ∈ users) (h : Added useMap symbMap useMap')
    (huse : useMap' entry.1 = Option.some users) :
    Added useMap (symbMap ++ [entry]) (Function.update useMap' entry.1
      (Option.some (((order entry.2).map cdEdge).toFinset ∪ users))) := by
  have hdep : ∀ x op, ControlDep (symbMap ++ [entry]) x op ↔
      ControlDep symbMap x op ∨ (entry.1 = x ∧ ∃ o ∈ entry.2, op = cdEdge o) := by
    intro x op
    simp only [ControlDep, List.mem_append, List.mem_singleton, or_and_right, exists_or,
      exists_eq_left]
  constructor
  case none =>
    intro x hx
    have hne : x ≠ entry.1 := by
      rintro rfl
      rw [h.none _ hx] at huse
      cases huse
    rw [Function.update_of_ne hne]
    exact h.none x hx
  case some =>
    intro x users₀ hx
    obtain ⟨users', huse', hmem⟩ := h.some x users₀ hx
    by_cases hxe : x = entry.1
    · subst hxe
      obtain rfl : users = users' := Option.some.inj (huse.symm.trans huse')
      refine ⟨_, Function.update_self .., fun op => ?_⟩
      rw [Finset.mem_union, List.mem_toFinset, List.mem_map, hmem, hdep]
      constructor
      · rintro (⟨o, ho, rfl⟩ | hop | hop)
        · exact Or.inr (Or.inr ⟨rfl, o, (horder _ _).mp ho, rfl⟩)
        · exact Or.inl hop
        · exact Or.inr (Or.inl hop)
      · rintro (hop | hop | ⟨-, o, ho, rfl⟩)
        · exact Or.inr (Or.inl hop)
        · exact Or.inr (Or.inr hop)
        · exact Or.inl ⟨o, (horder _ _).mpr ho, rfl⟩
    · refine ⟨users', by rw [Function.update_of_ne hxe, huse'], fun op => ?_⟩
      rw [hmem, hdep]
      refine or_congr_right (or_iff_left ?_).symm
      exact fun hop => hxe hop.1.symm

theorem addControlDependenceEdges_spec (horder : ∀ users op, op ∈ order users ↔ op ∈ users)
    (h : Graph vars useMap symbMap) :
    ∃ useMap', addControlDependenceEdges order useMap symbMap vars = .ok useMap' ∧
      Added useMap symbMap useMap' := by
  have hloop : ∀ (rest done : List (Nat × Finset OpNode)) (useMap₁ : UseMap),
      (∀ entry ∈ rest, entry.1 ∈ vars) → Added useMap done useMap₁ →
      ∃ useMap', addControlDependenceEdges order useMap₁ rest vars = .ok useMap' ∧
        Added useMap (done ++ rest) useMap' := by
    intro rest
    induction rest with
    | nil =>
      intro done useMap₁ _ hadd
      exact ⟨useMap₁, rfl, by rwa [List.append_nil]⟩
    | cons entry rest ih =>
      intro done useMap₁ hrest hadd
      have hkey := hrest entry List.mem_cons_self
      obtain ⟨users₀, huse₀⟩ := h.users entry.1 hkey
      obtain ⟨users, huse, -⟩ := hadd.some _ _ huse₀
      obtain ⟨useMap', hrun, hadd'⟩ := ih (done ++ [entry]) _
        (fun e he => hrest e (List.mem_cons_of_mem _ he)) (hadd.step horder huse)
      refine ⟨useMap', ?_, by rwa [List.append_assoc] at hadd'⟩
      rw [addControlDependenceEdges, List.foldlM_cons, addEntry_eq hkey _ huse]
      exact hrun
  refine hloop symbMap [] useMap (fun entry he => (h.symbolic entry he).1)
    ⟨fun _ hx => hx, fun x users hx => ⟨users, hx, fun op => (or_iff_left ?_).symm⟩⟩
  rintro ⟨entry, hentry, -⟩
  exact absurd hentry List.not_mem_nil

theorem Added.uses_iff (h : Added useMap symbMap useMap') (hgraph : Graph vars useMap symbMap)
    (x y : Nat) : Uses useMap' x y ↔ Edge useMap symbMap x y := by
  constructor
  · rintro ⟨users', huse', op, hop, rfl⟩
    cases huse : useMap x with
    | none =>
      rw [h.none x huse] at huse'
      cases huse'
    | some users =>
      obtain ⟨users'', huse'', hmem⟩ := h.some x users huse
      obtain rfl : users'' = users' := Option.some.inj (huse''.symm.trans huse')
      obtain hop | ⟨entry, he, hx, o, ho, rfl⟩ := (hmem op).mp hop
      · exact Or.inl ⟨users, huse, op, hop, rfl⟩
      · exact Or.inr ⟨entry, he, hx, o, ho, rfl⟩
  · rintro (⟨users, huse, op, hop, rfl⟩ | ⟨entry, he, rfl, o, ho, rfl⟩)
    · obtain ⟨users', huse', hmem⟩ := h.some x users huse
      exact ⟨users', huse', op, (hmem op).mpr (Or.inl hop), rfl⟩
    · obtain ⟨users, huse⟩ := hgraph.users entry.1 (hgraph.symbolic entry he).1
      obtain ⟨users', huse', hmem⟩ := h.some _ users huse
      exact ⟨users', huse', cdEdge o, (hmem _).mpr (Or.inr ⟨entry, he, rfl, o, ho, rfl⟩), rfl⟩

/-- The pseudo edges are removed from the map, and only these. -/
theorem Added.del (h : Added useMap symbMap useMap') (hgraph : Graph vars useMap symbMap) :
    delControlDependenceEdges useMap' = useMap := by
  funext x
  unfold delControlDependenceEdges
  cases huse : useMap x with
  | none => rw [h.none x huse, Option.map_none]
  | some users =>
    obtain ⟨users', huse', hmem⟩ := h.some x users huse
    rw [huse', Option.map_some]
    congr 1
    ext op
    rw [Finset.mem_filter, hmem]
    constructor
    · rintro ⟨hop | ⟨entry, -, -, o, -, rfl⟩, hplain⟩
      · exact hop
      · exact Bool.noConfusion hplain
    · exact fun hop => ⟨Or.inl hop, hgraph.plain x users huse op hop⟩

end Edges

/-! ## The components of the constraint graph -/

section Construct

variable {order : Finset OpNode → List OpNode} {vars : List Nat} {useMap : UseMap} {st : State}

/-- Between two visits of the constructor nothing is left on the stack. -/
theorem Visited.stack_nil (h : Visited vars useMap [] st) : st.stack = [] := by
  cases hstack : st.stack with
  | nil => rfl
  | cons x rest =>
    obtain ⟨g, hg, -⟩ := h.downward x (by rw [hstack]; exact List.mem_cons_self)
    exact absurd hg List.not_mem_nil

theorem Visited.component_of_seen (h : Visited vars useMap [] st) {x : Nat}
    (hx : Seen vars st x) : x ∈ st.inComponent := by
  by_contra hxc
  have hxs := (h.stack_iff x).mpr ⟨⟨hx, hxc⟩, List.not_mem_nil⟩
  rw [h.stack_nil] at hxs
  exact absurd hxs List.not_mem_nil

/-- Two roots that reach each other are one: an edge on the way stays in the component. -/
theorem Parts.root_eq (h : Parts useMap st) {r r' : Nat} (hr : r ∈ st.worklist)
    (hr' : r' ∈ st.worklist) (hrr : SameComponent (Uses useMap) r r') : r = r' := by
  have hno : ∀ {r r'}, r ∈ st.worklist → r' ∈ st.worklist →
      (∀ x ∈ st.components r, ∀ y ∈ st.components r', ¬ Uses useMap x y) →
      SameComponent (Uses useMap) r r' → r = r' := by
    intro r r' hr hr' hno hsame
    obtain rfl | ⟨z, hrz, hzr⟩ := Relation.ReflTransGen.cases_head hsame.1
    · rfl
    · have hz : z ∈ st.components r' := (h.component r' hr' z).mpr ⟨hsame.2.tail hrz, hzr⟩
      have hself : r ∈ st.components r := (h.component r hr r).mpr (SameComponent.refl r)
      exact absurd hrz (hno r hself z hz)
  have hpair : st.worklist.Pairwise fun r r' => SameComponent (Uses useMap) r r' → r = r' :=
    h.ordered.imp_of_mem fun hr hr' hrr => hno hr hr' hrr.2
  exact hpair.forall_of_forall_of_flip (fun _ _ _ => rfl)
    (hpair.imp fun hrr hsame => (hrr hsame.symm).symm) hr hr' hrr

theorem visitAll_spec (horder : ∀ users op, op ∈ order users ↔ op ∈ users)
    (hat : ∀ x ∈ vars, ∃ users, useMap x = some users)
    (hsinks : ∀ x ∈ vars, ∀ y, Uses useMap x y → y ∈ vars) (keys : List Nat) (st : State)
    (hkeys : ∀ x ∈ keys, x ∈ vars) (h : Visited vars useMap [] st) (hparts : Parts useMap st) :
    ∃ st', keys.foldlM (fun st key =>
        if st.dfs key < 0 then visit order useMap vars.length key { st with stack := [] }
        else .ok st) st = .ok st' ∧
      Visited vars useMap [] st' ∧ Parts useMap st' ∧ Keeps vars st st' ∧
      ∀ x ∈ keys, Seen vars st' x := by
  induction keys generalizing st with
  | nil => exact ⟨st, rfl, h, hparts, Keeps.refl st, fun x hx => absurd hx List.not_mem_nil⟩
  | cons key keys ih =>
    have hkey := hkeys key List.mem_cons_self
    have hst : { st with stack := [] } = st := by rw [← h.stack_nil]
    obtain ⟨st₁, hrun, h₁⟩ : ∃ st₁,
        (if st.dfs key < 0 then visit order useMap vars.length key { st with stack := [] }
          else .ok st) = .ok st₁ ∧ Visit vars useMap [] key st st₁ := by
      by_cases hneg : st.dfs key < 0
      · rw [if_pos hneg, hst]
        refine visit_spec horder hat hsinks _ hkey hneg h hparts
          (fun g hg => absurd hg List.not_mem_nil) ?_
        exact (Finset.card_filter_le _ _).trans vars.toFinset_card_le
      · rw [if_neg hneg]
        exact ⟨st, rfl, visit_of_seen h hparts ⟨hkey, not_lt.mp hneg⟩⟩
    obtain ⟨st', hrest, h', hparts', hkeeps, hseen⟩ :=
      ih st₁ (fun x hx => hkeys x (List.mem_cons_of_mem _ hx)) h₁.visited h₁.parts
    refine ⟨st', ?_, h', hparts', h₁.keeps.trans hkeeps, fun x hx => ?_⟩
    · rw [List.foldlM_cons, hrun]
      exact hrest
    · obtain rfl | hx := List.mem_cons.mp hx
      · exact hkeeps.seen h₁.seen
      · exact hseen x hx

/-- The components partition the variables, are the strongly connected ones of the use edges and
control dependence edges, and come in an order that no edge goes against; the use map is left as
it was. -/
theorem construct_components (order : Finset OpNode → List OpNode) (vars : List Nat)
    (useMap : UseMap) (symbMap : List (Nat × Finset OpNode))
    (horder : ∀ users op, op ∈ order users ↔ op ∈ users) (h : Graph vars useMap symbMap) :
    ∃ st, construct order vars useMap symbMap = .ok (st, useMap) ∧
      (∀ x, x ∈ vars ↔ ∃ r ∈ st.iterate, x ∈ st.components r) ∧
      (∀ r ∈ st.iterate, r ∈ st.components r) ∧
      (∀ r ∈ st.iterate, ∀ r' ∈ st.iterate, ∀ x, x ∈ st.components r → x ∈ st.components r' →
        r = r') ∧
      (∀ r ∈ st.iterate, ∀ x ∈ st.components r, ∀ y,
        y ∈ st.components r ↔ SameComponent (Edge useMap symbMap) x y) ∧
      st.iterate.Nodup ∧
      st.iterate.Pairwise fun r r' =>
        ∀ x ∈ st.components r', ∀ y ∈ st.components r, ¬ Edge useMap symbMap x y := by
  obtain ⟨useMap', hadd, hadded⟩ := addControlDependenceEdges_spec horder h
  have hedge : Uses useMap' = Edge useMap symbMap := by
    funext x y
    exact propext (hadded.uses_iff h x y)
  have hat : ∀ x ∈ vars, ∃ users, useMap' x = some users := by
    intro x hx
    obtain ⟨users, huse⟩ := h.users x hx
    obtain ⟨users', huse', -⟩ := hadded.some x users huse
    exact ⟨users', huse'⟩
  have hsinks : ∀ x ∈ vars, ∀ y, Uses useMap' x y → y ∈ vars := by
    intro x hx y hxy
    obtain huse | ⟨entry, he, -, op, hop, rfl⟩ := (hadded.uses_iff h x y).mp hxy
    · exact h.sinks x hx y huse
    · exact (h.symbolic entry he).2 op hop
  obtain ⟨st₀, hst₀⟩ : ∃ st₀ : State, st₀ =
    { index := 0
      dfs := fun key => if key ∈ vars then -1 else 0
      root := fun _ => 0
      inComponent := ∅
      components := fun _ => ∅
      worklist := []
      stack := [] } := ⟨_, rfl⟩
  have hunseen : ∀ x, ¬ Seen vars st₀ x := by
    rintro x ⟨hx, hle⟩
    rw [hst₀] at hle
    simp [hx] at hle
  have hvisited : Visited vars useMap' [] st₀ := by
    constructor
    case dfs_lt =>
      intro x hx
      rw [hst₀]
      simp [hx]
    case dfs_inj => exact fun x _ hx => absurd hx (hunseen x)
    case stack_iff =>
      intro x
      refine iff_of_false ?_ fun hx => hunseen x hx.1.1
      rw [hst₀]
      exact List.not_mem_nil
    case active_live => exact fun x hx => absurd hx List.not_mem_nil
    case root => exact fun x hx => absurd hx.1 (hunseen x)
    case upward => exact fun x _ hx => absurd hx.1 (hunseen x)
    all_goals
      intro x hx
      rw [hst₀] at hx
      simp at hx
  have hparts : Parts useMap' st₀ := by
    rw [hst₀]
    exact ⟨fun x => by simp, fun r hr => absurd hr List.not_mem_nil, fun _ _ => rfl,
      List.Pairwise.nil⟩
  obtain ⟨st, hrun, hv, hp, -, hseen⟩ :=
    visitAll_spec horder hat hsinks vars st₀ (fun _ hx => hx) hvisited hparts
  have hself : ∀ r ∈ st.worklist, r ∈ st.components r :=
    fun r hr => (hp.component r hr r).mpr (SameComponent.refl r)
  have hsame : ∀ r ∈ st.worklist, ∀ x ∈ st.components r, ∀ y,
      y ∈ st.components r ↔ SameComponent (Uses useMap') x y := by
    intro r hr x hx y
    have hrx := (hp.component r hr x).mp hx
    rw [hp.component r hr y]
    exact ⟨hrx.symm.trans, hrx.trans⟩
  have hmem : ∀ x, x ∈ vars ↔ x ∈ st.inComponent :=
    fun x => ⟨fun hx => hv.component_of_seen (hseen x hx), fun hx => (hv.component_seen x hx).1⟩
  have hdisjoint : ∀ r ∈ st.worklist, ∀ r' ∈ st.worklist, ∀ x, x ∈ st.components r →
      x ∈ st.components r' → r = r' := by
    intro r hr r' hr' x hx hx'
    exact hp.root_eq hr hr' (((hp.component r hr x).mp hx).trans ((hp.component r' hr' x).mp hx').symm)
  refine ⟨st, ?_, fun x => ?_, fun r hr => hself r (List.mem_reverse.mp hr), ?_, ?_, ?_, ?_⟩
  · rw [construct, hadd]
    simp only [ok_bind]
    rw [← hst₀, hrun]
    simp only [ok_bind]
    rw [hadded.del h]
  · rw [hmem, hp.mem_iff]
    simp only [State.iterate, List.mem_reverse]
  · intro r hr r' hr'
    exact hdisjoint r (List.mem_reverse.mp hr) r' (List.mem_reverse.mp hr')
  · intro r hr
    rw [← hedge]
    exact hsame r (List.mem_reverse.mp hr)
  · exact List.nodup_reverse.mpr (hp.ordered.imp fun hrr => hrr.1)
  · rw [← hedge]
    exact List.pairwise_reverse.mpr (hp.ordered.imp fun hrr => hrr.2)

/-- Two variables that use each other, and a third one that the second one bounds. -/
def loopUses : UseMap := fun x =>
  if x = 0 then some {OpNode.op 7 1} else if x = 1 then some {OpNode.op 8 0}
  else if x = 2 then some ∅ else none

theorem loopUses_cases {x : Nat} {users : Finset OpNode} (h : loopUses x = some users) :
    ∀ op ∈ users, op = OpNode.op 7 1 ∨ op = OpNode.op 8 0 := by
  intro op hop
  unfold loopUses at h
  split at h
  · cases h
    exact Or.inl (Finset.mem_singleton.mp hop)
  split at h
  · cases h
    exact Or.inr (Finset.mem_singleton.mp hop)
  split at h
  · cases h
    exact absurd hop (Finset.notMem_empty op)
  · cases h

theorem graph_loopUses : Graph [0, 1, 2] loopUses [(1, {OpNode.op 9 2})] where
  users := by
    intro x hx
    obtain rfl | rfl | rfl : x = 0 ∨ x = 1 ∨ x = 2 := by simpa using hx
    all_goals exact ⟨_, rfl⟩
  sinks := by
    rintro x - y ⟨users, huse, op, hop, rfl⟩
    obtain rfl | rfl := loopUses_cases huse op hop <;> decide
  symbolic := by decide
  plain := by
    intro x users huse op hop
    obtain rfl | rfl := loopUses_cases huse op hop <;> rfl

theorem construct_components_loop :
    ∃ st, construct Finset.toList [0, 1, 2] loopUses [(1, {OpNode.op 9 2})] =
        .ok (st, loopUses) ∧
      (∀ x, x ∈ [0, 1, 2] ↔ ∃ r ∈ st.iterate, x ∈ st.components r) ∧
      st.iterate.Pairwise fun r r' => ∀ x ∈ st.components r', ∀ y ∈ st.components r,
        ¬ Edge loopUses [(1, {OpNode.op 9 2})] x y := by
  obtain ⟨st, hrun, hmem, -, -, -, -, hordered⟩ := construct_components Finset.toList [0, 1, 2]
    loopUses [(1, {OpNode.op 9 2})] (fun _ _ => Finset.mem_toList) graph_loopUses
  exact ⟨st, hrun, hmem, hordered⟩

end Construct

end Nuutila
end RangeAnalysis
end Bambu
