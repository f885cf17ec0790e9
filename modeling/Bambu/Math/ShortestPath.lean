/-
  Bambu.Math.ShortestPath

  Shortest distances from one node of an acyclic graph with weights of any sign.

  One sweep over the nodes relaxes the edges that leave them.  `top` stands for a node that is not
  reached, and a node that has it is left out.

    * What a node has is `top` or the weight of a route to it (`sweep_reached`).
    * Where no edge leads back, a node is final when its turn comes, so that at the end no edge
      can lower a distance any more (`sweep_settled`).
    * The distances are then the least weights of routes, as soon as whatever is reached is reached
      below `top` (`sweep_isLeast`, `sweep_eq_top_iff`).
-/

import Bambu.Math.Propagation
import Mathlib.Order.Bounds.Basic

namespace Bambu.Math

variable {α K : Type}

/-! ## Routes -/

section Route

variable [AddCommMonoid K] {E E' : α → α → K → Prop} {s u v : α} {total total' : K}

/-- The edges of `E` lead from `s` to a node, and their weights make up a total. -/
inductive Route (E : α → α → K → Prop) (s : α) : α → K → Prop
  | refl : Route E s s 0
  | snoc {u v : α} {total weight : K} (route : Route E s u total) (edge : E u v weight) :
      Route E s v (total + weight)

theorem Route.single {weight : K} (edge : E s v weight) : Route E s v weight := by
  have hroute := Route.refl.snoc edge
  rwa [zero_add] at hroute

theorem Route.trans (h : Route E s u total) (h' : Route E u v total') :
    Route E s v (total + total') := by
  induction h' with
  | refl => rwa [add_zero]
  | snoc _ edge ih =>
    rw [← add_assoc]
    exact ih.snoc edge

theorem Route.mono (hE : ∀ u v weight, E u v weight → E' u v weight) (h : Route E s v total) :
    Route E' s v total := by
  induction h with
  | refl => exact .refl
  | snoc _ edge ih => exact ih.snoc (hE _ _ _ edge)

/-- What contains the start and what an edge leads to contains the end. -/
theorem Route.mem {S : Set α} (hs : s ∈ S) (hS : ∀ u ∈ S, ∀ v weight, E u v weight → v ∈ S)
    (h : Route E s v total) : v ∈ S := by
  induction h with
  | refl => exact hs
  | snoc _ edge ih => exact hS _ ih _ _ edge

variable [LinearOrder K] [IsOrderedAddMonoid K]

/-- Where no edge of `E` is lighter than every route of `E'`, no route of `E` is. -/
theorem Route.exists_le (hE : ∀ u v weight, E u v weight → ∃ t ≤ weight, Route E' u v t)
    (h : Route E s v total) : ∃ t ≤ total, Route E' s v t := by
  induction h with
  | refl => exact ⟨0, le_refl 0, .refl⟩
  | snoc _ edge ih =>
    obtain ⟨t, hle, hroute⟩ := ih
    obtain ⟨t', hle', hedge⟩ := hE _ _ _ edge
    exact ⟨t + t', add_le_add hle hle', hroute.trans hedge⟩

end Route

/-! ## The sweep -/

section Sweep

variable [DecidableEq α] [AddCommMonoid K] [LinearOrder K]

/-- A node that costs `cost` offers a successor what the edge to it adds. -/
def relaxEdge (cost : K) (weight : α → K) (d : α → K) (v : α) : α → K :=
  if cost + weight v < d v then Function.update d v (cost + weight v) else d

def relaxNode (succs : α → List α) (weight : α → α → K) (top : K) (d : α → K) (u : α) : α → K :=
  if d u ≠ top then (succs u).foldl (relaxEdge (d u) (weight u)) d else d

def sweep (succs : α → List α) (weight : α → α → K) (top : K) (order : List α) (d : α → K) :
    α → K :=
  order.foldl (relaxNode succs weight top) d

/-- The distances at the start of a sweep. -/
def origin (top : K) (s : α) : α → K := Function.update (fun _ => top) s 0

/-- The edges along which a sweep relaxes. -/
def Along (succs : α → List α) (weight : α → α → K) (u v : α) (w : K) : Prop :=
  v ∈ succs u ∧ weight u v = w

variable {succs : α → List α} {weight : α → α → K} {top : K} {order : List α} {d : α → K}
  {s u v : α}

omit [DecidableEq α] [LinearOrder K] in
theorem Route.mem_of_along {t : K} (hclosed : ∀ u ∈ order, ∀ v ∈ succs u, v ∈ order)
    (hs : s ∈ order) (h : Route (Along succs weight) s v t) : v ∈ order :=
  h.mem (S := {v | v ∈ order}) hs fun u hu v _ hedge => hclosed u hu v hedge.1

theorem relaxEdge_apply (cost : K) (weight : α → K) (d : α → K) (u v : α) :
    relaxEdge cost weight d u v = if v = u then min (d v) (cost + weight v) else d v := by
  rw [relaxEdge]
  by_cases hvu : v = u
  · rw [if_pos hvu, hvu]
    split
    · rename_i hlt
      rw [Function.update_self, min_eq_right hlt.le]
    · rename_i hge
      rw [min_eq_left (not_lt.mp hge)]
  · rw [if_neg hvu]
    split
    · exact Function.update_of_ne hvu ..
    · rfl

theorem foldl_relaxEdge_apply (cost : K) (weight : α → K) (l : List α) (d : α → K) (v : α) :
    l.foldl (relaxEdge cost weight) d v = if v ∈ l then min (d v) (cost + weight v) else d v := by
  induction l generalizing d with
  | nil => rfl
  | cons u l ih =>
    rw [List.foldl_cons, ih, relaxEdge_apply]
    by_cases hvu : v = u <;> by_cases hvl : v ∈ l <;> simp [hvu, hvl]

theorem relaxNode_le (d : α → K) (u v : α) : relaxNode succs weight top d u v ≤ d v := by
  rw [relaxNode]
  split
  · rw [foldl_relaxEdge_apply]
    split
    · exact min_le_left ..
    · exact le_refl _
  · exact le_refl _

theorem relaxNode_of_notMem (h : v ∉ succs u) : relaxNode succs weight top d u v = d v := by
  rw [relaxNode]
  split
  · rw [foldl_relaxEdge_apply, if_neg h]
  · rfl

theorem relaxNode_succ_le (hu : d u ≠ top) (hv : v ∈ succs u) :
    relaxNode succs weight top d u v ≤ d u + weight u v := by
  rw [relaxNode, if_pos hu, foldl_relaxEdge_apply, if_pos hv]
  exact min_le_right ..

theorem sweep_append_singleton (order : List α) (u : α) (d : α → K) :
    sweep succs weight top (order ++ [u]) d =
      relaxNode succs weight top (sweep succs weight top order d) u := by
  rw [sweep, List.foldl_append]
  rfl

theorem sweep_le (order : List α) (d : α → K) (v : α) : sweep succs weight top order d v ≤ d v := by
  induction order using List.reverseRecOn with
  | nil => exact le_refl _
  | append_singleton order u ih =>
    rw [sweep_append_singleton]
    exact le_trans (relaxNode_le ..) ih

/-! ## What the distances stand for -/

/-- A distance is `top` or the weight of a route, and below `top`. -/
def Reached (E : α → α → K → Prop) (top : K) (s : α) (d : α → K) : Prop :=
  ∀ v, d v = top ∨ d v < top ∧ Route E s v (d v)

theorem reached_origin {E : α → α → K → Prop} (htop : 0 < top) (s : α) :
    Reached E top s (origin top s) := by
  intro v
  rw [origin]
  by_cases hvs : v = s
  · subst hvs
    rw [Function.update_self]
    exact Or.inr ⟨htop, .refl⟩
  · rw [Function.update_of_ne hvs]
    exact Or.inl rfl

omit [DecidableEq α] in
theorem Reached.le_top {E : α → α → K → Prop} (h : Reached E top s d) (v : α) : d v ≤ top := by
  rcases h v with heq | hlt
  · exact le_of_eq heq
  · exact hlt.1.le

theorem Reached.relaxNode (h : Reached (Along succs weight) top s d) (u : α) :
    Reached (Along succs weight) top s (relaxNode succs weight top d u) := by
  intro v
  by_cases hv : d u ≠ top ∧ v ∈ succs u ∧ d u + weight u v < d v
  · obtain ⟨hu, hmem, hlt⟩ := hv
    -- The offer is taken: the route to the node goes on along the edge.
    have hroute := ((h u).resolve_left hu).2.snoc (v := v) ⟨hmem, rfl⟩
    rw [Math.relaxNode, if_pos hu, foldl_relaxEdge_apply, if_pos hmem, min_eq_right hlt.le]
    exact Or.inr ⟨lt_of_lt_of_le hlt (h.le_top v), hroute⟩
  · have hkeep : Math.relaxNode succs weight top d u v = d v := by
      rw [Math.relaxNode]
      split
      · rename_i hu
        rw [foldl_relaxEdge_apply]
        split
        · rename_i hmem
          exact min_eq_left (not_lt.mp fun hlt => hv ⟨hu, hmem, hlt⟩)
        · rfl
      · rfl
    rw [hkeep]
    exact h v

theorem sweep_reached (order : List α) (h : Reached (Along succs weight) top s d) :
    Reached (Along succs weight) top s (sweep succs weight top order d) := by
  induction order using List.reverseRecOn with
  | nil => exact h
  | append_singleton order u ih =>
    rw [sweep_append_singleton]
    exact ih.relaxNode u

/-- At the end no edge that leaves a reached node of the order can lower a distance. -/
theorem sweep_settled (horder : Forward (fun u v => v ∈ succs u) order) (d : α → K) :
    ∀ u ∈ order, sweep succs weight top order d u ≠ top → ∀ v ∈ succs u,
      sweep succs weight top order d v ≤ sweep succs weight top order d u + weight u v := by
  induction order using List.reverseRecOn with
  | nil =>
    intro u hu
    cases hu
  | append_singleton order x ih =>
    intro u hu hreached v hv
    -- The turn of `x` leaves the nodes up to it as they are.
    have hfinal : sweep succs weight top (order ++ [x]) d u = sweep succs weight top order d u := by
      rw [sweep_append_singleton]
      apply relaxNode_of_notMem
      rcases List.mem_append.mp hu with hbefore | hself
      · exact horder.not_back hbefore
      · rw [List.mem_singleton.mp hself]
        exact horder.irrefl x (by simp)
    rw [hfinal] at hreached ⊢
    rw [sweep_append_singleton]
    rcases List.mem_append.mp hu with hbefore | hself
    · exact le_trans (relaxNode_le ..) (ih horder.left u hbefore hreached v hv)
    · rw [List.mem_singleton] at hself
      subst hself
      exact relaxNode_succ_le hreached hv

variable [IsOrderedAddMonoid K]

section Exact

variable (horder : Forward (fun u v => v ∈ succs u) order)
  (hclosed : ∀ u ∈ order, ∀ v ∈ succs u, v ∈ order) (hs : s ∈ order)
  (hbelow : ∀ v t, Route (Along succs weight) s v t → ∃ t' < top, Route (Along succs weight) s v t')

include horder hclosed hs hbelow

/-- No route is lighter than the distance of its end. -/
theorem sweep_le_route : ∀ v ∈ order, ∀ t, Route (Along succs weight) s v t →
    sweep succs weight top order (origin top s) v ≤ t := by
  -- A node comes after those that have an edge to it.
  refine horder.induction (P := fun v => ∀ t, Route (Along succs weight) s v t →
    sweep succs weight top order (origin top s) v ≤ t) ?_
  intro v _ ih t hroute
  cases hroute with
  | refl =>
    have hstart : sweep succs weight top order (origin top s) s ≤ origin top s s := sweep_le ..
    rwa [origin, Function.update_self] at hstart
  | @snoc u _ total w hroute hedge =>
    obtain ⟨hsucc, rfl⟩ := hedge
    have hu : u ∈ order := hroute.mem_of_along hclosed hs
    have hle := ih u hu hsucc
    obtain ⟨t', hlt, hroute'⟩ := hbelow u total hroute
    have hreached := ne_of_lt (lt_of_le_of_lt (hle t' hroute') hlt)
    calc sweep succs weight top order (origin top s) v
        ≤ sweep succs weight top order (origin top s) u + weight u v :=
          sweep_settled horder _ u hu hreached v hsucc
      _ ≤ total + weight u v := by
          gcongr
          exact hle total hroute

theorem sweep_lt_top {t : K} (h : Route (Along succs weight) s v t) :
    sweep succs weight top order (origin top s) v < top := by
  obtain ⟨t', hlt, hroute⟩ := hbelow v t h
  have hle := sweep_le_route horder hclosed hs hbelow v (h.mem_of_along hclosed hs) t' hroute
  exact lt_of_le_of_lt hle hlt

/-- The distance of a node that is reached is the least weight of a route to it. -/
theorem sweep_isLeast (htop : 0 < top) {t : K} (h : Route (Along succs weight) s v t) :
    IsLeast {t | Route (Along succs weight) s v t}
      (sweep succs weight top order (origin top s) v) := by
  have hlt := sweep_lt_top horder hclosed hs hbelow h
  have hreached : Reached (Along succs weight) top s
      (sweep succs weight top order (origin top s)) :=
    sweep_reached order (reached_origin htop s)
  exact ⟨((hreached v).resolve_left hlt.ne).2, fun _ hroute =>
    sweep_le_route horder hclosed hs hbelow v (h.mem_of_along hclosed hs) _ hroute⟩

/-- The nodes that have `top` are those that are not reached. -/
theorem sweep_eq_top_iff (htop : 0 < top) :
    sweep succs weight top order (origin top s) v = top ↔
      ¬ ∃ t, Route (Along succs weight) s v t := by
  constructor
  · rintro heq ⟨t, hroute⟩
    exact (sweep_lt_top horder hclosed hs hbelow hroute).ne heq
  · intro hnone
    have hreached : Reached (Along succs weight) top s
        (sweep succs weight top order (origin top s)) :=
      sweep_reached order (reached_origin htop s)
    rcases hreached v with heq | hlt
    · exact heq
    · exact absurd ⟨_, hlt.2⟩ hnone

end Exact

end Sweep

end Bambu.Math
