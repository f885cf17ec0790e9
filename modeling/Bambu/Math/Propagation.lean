/-
  Bambu.Math.Propagation

  Quantities propagated along the edges of an acyclic graph.

  The nodes are visited in an order in which no edge leads back.  A node is then final when it is
  visited, so that what it ends up with is what it had at the start and what its predecessors
  hand on to it (`propagate_eq`).
-/

import Mathlib.Algebra.Order.BigOperators.Group.List
import Mathlib.Algebra.Order.Group.Nat
import Mathlib.Algebra.Ring.Nat
import Mathlib.Data.List.Induction

namespace Bambu.Math

variable {α : Type}

/-! ## Orders without back edges -/

/-- No edge leads from a node to itself or to a node before it. -/
structure Forward (E : α → α → Prop) (order : List α) : Prop where
  irrefl : ∀ a ∈ order, ¬ E a a
  pairwise : order.Pairwise fun a b => ¬ E b a

section Forward

variable {E : α → α → Prop} {order : List α} {v : α}

theorem Forward.left {order' : List α} (h : Forward E (order ++ order')) : Forward E order :=
  ⟨fun a ha => h.irrefl a (List.mem_append_left _ ha), (List.pairwise_append.mp h.pairwise).1⟩

/-- Nothing before a node is reached from it by an edge. -/
theorem Forward.not_back (h : Forward E (order ++ [v])) {a : α} (ha : a ∈ order) : ¬ E v a :=
  (List.pairwise_append.mp h.pairwise).2.2 a ha v (List.mem_singleton_self v)

/-- From a node on, no edge leads to the node. -/
theorem Forward.not_into {order' : List α} (h : Forward E (order ++ v :: order')) {a : α}
    (ha : a ∈ v :: order') : ¬ E a v := by
  rcases List.mem_cons.mp ha with rfl | ha
  · exact h.irrefl a (List.mem_append_right _ (List.mem_cons_self ..))
  · have hcons := (List.pairwise_append.mp h.pairwise).2.1
    exact (List.pairwise_cons.mp hcons).1 a ha

/-- What holds of a node as soon as it holds of its predecessors holds of every node. -/
theorem Forward.induction {P : α → Prop} (h : Forward E order)
    (step : ∀ v ∈ order, (∀ c ∈ order, E c v → P c) → P v) : ∀ v ∈ order, P v := by
  induction order using List.reverseRecOn with
  | nil =>
    intro v hv
    cases hv
  | append_singleton order u ih =>
    have hbefore : ∀ v ∈ order, P v := by
      refine ih h.left fun v hv hcallers => step v (List.mem_append_left _ hv) fun c hc hcv => ?_
      rcases List.mem_append.mp hc with hc | hc
      · exact hcallers c hc hcv
      · rw [List.mem_singleton.mp hc] at hcv
        exact absurd hcv (h.not_back hv)
    intro v hv
    rcases List.mem_append.mp hv with hv' | hv'
    · exact hbefore v hv'
    · refine step v hv fun c hc hcv => ?_
      rw [List.mem_singleton] at hv'
      subst hv'
      rcases List.mem_append.mp hc with hc | hc
      · exact hbefore c hc
      · rw [List.mem_singleton.mp hc] at hcv
        exact absurd hcv (h.irrefl _ (by simp))

end Forward

/-! ## Propagation -/

section Propagate

variable {R : Type} [Semiring R]

/-- Every node in turn hands on what it has, multiplied by the weights of its edges. -/
def propagate (w : α → α → R) (start : α → R) (order : List α) : α → R :=
  order.foldl (fun x v t => x t + x v * w v t) start

variable {w : α → α → R} {start : α → R} {order : List α}

theorem propagate_append_singleton (v t : α) :
    propagate w start (order ++ [v]) t =
      propagate w start order t + propagate w start order v * w v t := by
  unfold propagate
  rw [List.foldl_append]
  rfl

/-- A node that is visited does not change what was visited before it, nor itself. -/
theorem propagate_of_forward {v a : α} (h : Forward (fun a b => w a b ≠ 0) (order ++ [v]))
    (ha : a ∈ order ++ [v]) :
    propagate w start (order ++ [v]) a = propagate w start order a := by
  have hzero : w v a = 0 := by
    rcases List.mem_append.mp ha with ha | ha
    · exact not_not.mp (h.not_back ha)
    · rw [List.mem_singleton.mp ha]
      exact not_not.mp (h.irrefl v (by simp))
  rw [propagate_append_singleton, hzero, mul_zero, add_zero]

/-- The final quantities are those that the predecessors hand on. -/
theorem propagate_eq (h : Forward (fun a b => w a b ≠ 0) order) (t : α) :
    propagate w start order t =
      start t + (order.map fun c => propagate w start order c * w c t).sum := by
  induction order using List.reverseRecOn with
  | nil => simp [propagate]
  | append_singleton order v ih =>
    have hmap : ∀ l : List α, (∀ c ∈ l, c ∈ order ++ [v]) →
        (l.map fun c => propagate w start (order ++ [v]) c * w c t) =
          l.map fun c => propagate w start order c * w c t := by
      intro l hl
      exact List.map_congr_left fun c hc => by rw [propagate_of_forward h (hl c hc)]
    rw [propagate_append_singleton, hmap _ fun c hc => hc, List.map_append, List.sum_append,
      ← add_assoc, ← ih h.left]
    simp

end Propagate

/-! ## Numbers that track each other -/

theorem term_le_sum {k : α → Nat} {l : List α} {c : α} (hc : c ∈ l) : k c ≤ (l.map k).sum :=
  List.single_le_sum (fun x _ => Nat.zero_le x) _ (List.mem_map_of_mem hc)

/-- One number vanishes where the other does, and is one only where the other is. -/
def Tracks (x y : Nat) : Prop := (0 < x ↔ 0 < y) ∧ (x = 1 → y = 1)

theorem Tracks.add {x y x' y' : Nat} (h : Tracks x y) (h' : Tracks x' y') :
    Tracks (x + x') (y + y') := by
  obtain ⟨hpos, hone⟩ := h
  obtain ⟨hpos', hone'⟩ := h'
  constructor <;> omega

theorem Tracks.mul {x y : Nat} (h : Tracks x y) (n : Nat) : Tracks (x * n) (y * n) := by
  obtain ⟨hpos, hone⟩ := h
  refine ⟨?_, fun hprod => ?_⟩
  · rw [Nat.pos_iff_ne_zero, Nat.pos_iff_ne_zero, Nat.mul_ne_zero_iff, Nat.mul_ne_zero_iff,
      ← Nat.pos_iff_ne_zero, hpos, Nat.pos_iff_ne_zero]
  · rw [hone (Nat.eq_one_of_mul_eq_one_right hprod), Nat.eq_one_of_mul_eq_one_left hprod]

/-- Sums of numbers that track each other do. -/
theorem Tracks.sum {k k' : α → Nat} {l : List α} (h : ∀ c ∈ l, Tracks (k c) (k' c)) :
    Tracks (l.map k).sum (l.map k').sum := by
  induction l with
  | nil => exact ⟨Iff.rfl, fun hzero => absurd hzero Nat.zero_ne_one⟩
  | cons c l ih =>
    rw [List.map_cons, List.map_cons, List.sum_cons, List.sum_cons]
    exact (h c (List.mem_cons_self ..)).add (ih fun d hd => h d (List.mem_cons_of_mem c hd))

end Bambu.Math
