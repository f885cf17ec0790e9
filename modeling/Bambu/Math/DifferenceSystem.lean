/-
  Bambu.Math.DifferenceSystem

  Systems of difference constraints `V target - V source ≤ weight` over any index
  type, and the labels that a relaxation algorithm gives them.

  A label is justified by a trace: the path of relaxations it came from, each entry
  of which the current labels have not risen above.  A solution of the system bounds
  every trace from below, so that
    * a trace never returns to a vertex it would improve (`Trace.fresh`), and
    * labels that satisfy the system are its greatest solution below zero
      (`isGreatest_of_trace`).
-/

import Mathlib.Tactic.Linarith

namespace Bambu.Math

variable {ι : Type*}

/-- The constraint `V target - V source ≤ weight`, as an edge. -/
structure DiffConstraint (ι : Type*) where
  source : ι
  target : ι
  weight : Int
  deriving DecidableEq, Repr

/-- `V` solves the system. -/
def Satisfies (E : List (DiffConstraint ι)) (V : ι → Int) : Prop :=
  ∀ e ∈ E, V e.target - V e.source ≤ e.weight

instance (E : List (DiffConstraint ι)) (V : ι → Int) : Decidable (Satisfies E V) :=
  inferInstanceAs (Decidable (∀ e ∈ E, _))

/-- The system has a solution. -/
def Feasible (E : List (DiffConstraint ι)) : Prop := ∃ V, Satisfies E V

/-- The solutions that are nowhere above zero. -/
def Nonpositive (E : List (DiffConstraint ι)) : Set (ι → Int) := {V | Satisfies E V ∧ ∀ v, V v ≤ 0}

/-- The sum of the absolute weights. -/
def totalWeight (E : List (DiffConstraint ι)) : Nat := (E.map fun e => e.weight.natAbs).sum

/-- `Trace E d v l c`: relaxations along the vertices `l`, the latest first, led to the
label `c` of `v`, and `d` is nowhere above a label given on the way. -/
inductive Trace (E : List (DiffConstraint ι)) (d : ι → Int) : ι → List ι → Int → Prop
  | start {v : ι} (hd : d v ≤ 0) : Trace E d v [] 0
  | step {l : List ι} {c : Int} (e : DiffConstraint ι) (he : e ∈ E)
      (ht : Trace E d e.source l c) (hd : d e.target ≤ c + e.weight) :
      Trace E d e.target (e.source :: l) (c + e.weight)

namespace Trace

variable {E : List (DiffConstraint ι)} {d d' V : ι → Int} {v : ι} {l : List ι} {c : Int}

/-- Lowering labels keeps a trace. -/
theorem mono (h : Trace E d v l c) (hle : ∀ x, d' x ≤ d x) : Trace E d' v l c := by
  induction h with
  | start hd => exact .start (le_trans (hle _) hd)
  | step e he _ hd ih => exact .step e he ih (le_trans (hle _) hd)

theorem label_le (h : Trace E d v l c) : d v ≤ c := by
  cases h with
  | start hd => exact hd
  | step e he ht hd => exact hd

/-- A solution bounds the weight of a trace from any vertex on it. -/
theorem potential (h : Trace E d v l c) (hV : Satisfies E V) :
    ∀ x ∈ l, V v - V x ≤ c - d x := by
  induction h with
  | start _ => exact fun x hx => absurd hx List.not_mem_nil
  | step e he ht hd ih =>
    intro x hx
    have hedge := hV e he
    rcases List.mem_cons.mp hx with rfl | hmem
    · have hsource := ht.label_le
      omega
    · have hrest := ih x hmem
      omega

/-- In a system with a solution, a relaxation never returns to a vertex it improves:
going round would have a negative weight. -/
theorem fresh {e : DiffConstraint ι} (h : Trace E d e.source l c) (hV : Satisfies E V)
    (he : e ∈ E) (hself : e.source ≠ e.target) (hlt : c + e.weight < d e.target) :
    e.target ∉ e.source :: l := by
  intro hmem
  have hedge := hV e he
  rcases List.mem_cons.mp hmem with heq | hin
  · exact hself heq.symm
  · have hround := h.potential hV _ hin
    omega

/-- A solution that is not above zero is not above a trace. -/
theorem solution_le (h : Trace E d v l c) (hV : V ∈ Nonpositive E) : V v ≤ c := by
  induction h with
  | start _ => exact hV.2 _
  | step e he _ _ ih =>
    have hedge := hV.1 e he
    omega

/-- Every vertex a trace has left is the source of an edge. -/
theorem mem_source (h : Trace E d v l c) : ∀ x ∈ l, ∃ e ∈ E, e.source = x := by
  induction h with
  | start _ => exact fun x hx => absurd hx List.not_mem_nil
  | step e he _ _ ih =>
    intro x hx
    rcases List.mem_cons.mp hx with rfl | hmem
    · exact ⟨e, he, rfl⟩
    · exact ih x hmem

end Trace

/-! ## Bounds on the weights of traces -/

theorem totalWeight_nil : totalWeight ([] : List (DiffConstraint ι)) = 0 := rfl

theorem totalWeight_cons (e : DiffConstraint ι) (E : List (DiffConstraint ι)) :
    totalWeight (e :: E) = e.weight.natAbs + totalWeight E := rfl

theorem natAbs_le_totalWeight {E : List (DiffConstraint ι)} {e : DiffConstraint ι} (he : e ∈ E) :
    e.weight.natAbs ≤ totalWeight E := by
  induction E with
  | nil => exact absurd he List.not_mem_nil
  | cons a E ih =>
    rw [totalWeight_cons]
    rcases List.mem_cons.mp he with rfl | hmem
    · exact Nat.le_add_right _ _
    · exact le_trans (ih hmem) (Nat.le_add_left _ _)

/-- A trace weighs no less than its length times the total weight, downwards. -/
theorem Trace.lower {E : List (DiffConstraint ι)} {d : ι → Int} {v : ι} {l : List ι} {c : Int}
    (h : Trace E d v l c) : -(l.length * totalWeight E : Nat) ≤ c := by
  induction h with
  | start _ => simp
  | step e he _ _ ih =>
    have hw := natAbs_le_totalWeight he
    rw [List.length_cons, Nat.succ_mul]
    push_cast at ih ⊢
    omega

section Simple

variable [DecidableEq ι]

/-- The total weight of the edges into the vertices of `l`. -/
def weightInto (E : List (DiffConstraint ι)) (l : List ι) : Nat :=
  totalWeight (E.filter fun e => e.target ∈ l)

theorem weightInto_le (E : List (DiffConstraint ι)) (l : List ι) :
    weightInto E l ≤ totalWeight E := by
  induction E with
  | nil => exact le_refl _
  | cons e E ih =>
    unfold weightInto at ih ⊢
    rw [List.filter_cons, totalWeight_cons]
    split
    · rw [totalWeight_cons]
      exact Nat.add_le_add_left ih _
    · exact le_trans ih (Nat.le_add_left _ _)

/-- One more vertex adds the weights of the edges into it. -/
theorem weightInto_cons {E : List (DiffConstraint ι)} {e : DiffConstraint ι} {l : List ι}
    (he : e ∈ E) (hl : e.target ∉ l) :
    e.weight.natAbs + weightInto E l ≤ weightInto E (e.target :: l) := by
  -- The edges into the new vertex are none of those into `l`.
  have hsplit : ∀ F : List (DiffConstraint ι), weightInto F (e.target :: l) =
      weightInto F [e.target] + weightInto F l := by
    intro F
    induction F with
    | nil => rfl
    | cons a F ih =>
      unfold weightInto at ih ⊢
      simp only [List.filter_cons, List.mem_cons, List.not_mem_nil, or_false,
        Bool.decide_or, Bool.or_eq_true, decide_eq_true_eq] at ih ⊢
      by_cases ht : a.target = e.target
      · have hnot : a.target ∉ l := ht ▸ hl
        simp only [ht, true_or, if_true, hl, if_false, totalWeight_cons] at ih ⊢
        omega
      · by_cases hin : a.target ∈ l
        · simp only [ht, hin, or_true, if_true, if_false, totalWeight_cons] at ih ⊢
          omega
        · simp only [ht, hin, or_false, if_false] at ih ⊢
          omega
  have hone : e.weight.natAbs ≤ weightInto E [e.target] := by
    refine natAbs_le_totalWeight (List.mem_filter.mpr ⟨he, ?_⟩)
    simp
  rw [hsplit]
  exact Nat.add_le_add_right hone _

/-- A trace without repetitions weighs at most what the edges into its vertices do. -/
theorem Trace.natAbs_le {E : List (DiffConstraint ι)} {d : ι → Int} {v : ι} {l : List ι} {c : Int}
    (h : Trace E d v l c) (hnodup : (v :: l).Nodup) : c.natAbs ≤ weightInto E (v :: l) := by
  induction h with
  | start _ => exact Nat.zero_le _
  | step e he _ _ ih =>
    obtain ⟨hfresh, hrest⟩ := List.nodup_cons.mp hnodup
    have hprev := ih hrest
    have hadd := weightInto_cons he hfresh
    omega

end Simple

/-- Labels that have traces and satisfy the system are its greatest solution below zero. -/
theorem isGreatest_of_trace {E : List (DiffConstraint ι)} {d : ι → Int} (hd : Satisfies E d)
    (h0 : ∀ v, d v ≤ 0) (ht : ∀ v, ∃ l, Trace E d v l (d v)) : IsGreatest (Nonpositive E) d := by
  refine ⟨⟨hd, h0⟩, ?_⟩
  intro V hV v
  obtain ⟨l, hl⟩ := ht v
  exact hl.solution_le hV

/-! ## Relabelling -/

section Relabel

variable {κ : Type*}

/-- The constraint between the renamed vertices. -/
def DiffConstraint.map (f : ι → κ) (e : DiffConstraint ι) : DiffConstraint κ :=
  ⟨f e.source, f e.target, e.weight⟩

variable {E : List (DiffConstraint ι)} {f : ι → κ} {g : κ → ι}

/-- A solution of the renamed system, read through the renaming. -/
theorem Satisfies.comp {V : κ → Int} (h : Satisfies (E.map (DiffConstraint.map f)) V) :
    Satisfies E (V ∘ f) := by
  intro e he
  exact h _ (List.mem_map_of_mem he)

/-- A solution of the system, read through an inverse of the renaming. -/
theorem Satisfies.comp_inverse {V : ι → Int} (h : Satisfies E V)
    (hg : ∀ e ∈ E, g (f e.source) = e.source ∧ g (f e.target) = e.target) :
    Satisfies (E.map (DiffConstraint.map f)) (V ∘ g) := by
  intro e' he'
  obtain ⟨e, he, rfl⟩ := List.mem_map.mp he'
  obtain ⟨hs, ht⟩ := hg e he
  have hle := h e he
  simp only [DiffConstraint.map, Function.comp_apply, hs, ht]
  exact hle

theorem feasible_map_iff
    (hg : ∀ e ∈ E, g (f e.source) = e.source ∧ g (f e.target) = e.target) :
    Feasible (E.map (DiffConstraint.map f)) ↔ Feasible E := by
  constructor
  · rintro ⟨V, hV⟩
    exact ⟨V ∘ f, hV.comp⟩
  · rintro ⟨V, hV⟩
    exact ⟨V ∘ g, hV.comp_inverse hg⟩

/-- The greatest solution below zero does not depend on the names. -/
theorem isGreatest_map {d : ι → Int} {d' : κ → Int} (hd : IsGreatest (Nonpositive E) d)
    (hd' : IsGreatest (Nonpositive (E.map (DiffConstraint.map f))) d')
    (hg : ∀ e ∈ E, g (f e.source) = e.source ∧ g (f e.target) = e.target) {x : ι}
    (hx : g (f x) = x) : d' (f x) = d x := by
  have hdown : d' ∘ f ∈ Nonpositive E := ⟨hd'.1.1.comp, fun v => hd'.1.2 (f v)⟩
  have hup : d ∘ g ∈ Nonpositive (E.map (DiffConstraint.map f)) :=
    ⟨hd.1.1.comp_inverse hg, fun v => hd.1.2 (g v)⟩
  have hle : d' (f x) ≤ d x := hd.2 hdown x
  have hge : d (g (f x)) ≤ d' (f x) := hd'.2 hup (f x)
  rw [hx] at hge
  exact le_antisymm hle hge

end Relabel

end Bambu.Math
