/-
  Bambu.Algorithms.SdcSolver.Queue

  `CircularQueue`, a double-ended queue in a ring of fixed capacity.  While it is not
  overfilled it behaves as the list of its elements, front first (`Holds`).
-/

import Mathlib.Data.Int.ModEq
import Mathlib.Data.List.Basic

namespace Bambu.SdcSolver

/-- `CircularQueue`; `size` is `data.size()`. -/
structure CircularQueue where
  data : Nat → Nat
  size : Nat
  head : Nat
  tail : Nat
  count : Nat

namespace CircularQueue

/-- `CircularQueue(capacity)`. -/
def new (capacity : Nat) : CircularQueue where
  data := fun _ => 0
  size := if capacity = 0 then 1 else capacity
  head := 0
  tail := 0
  count := 0

def empty (queue : CircularQueue) : Bool := queue.count = 0

def front (queue : CircularQueue) : Nat := queue.data queue.head

/-- `push_back`. -/
def pushBack (queue : CircularQueue) (vertex : Nat) : CircularQueue :=
  { queue with
    data := Function.update queue.data queue.tail vertex
    tail := (queue.tail + 1) % queue.size
    count := queue.count + 1 }

/-- `push_front`. -/
def pushFront (queue : CircularQueue) (vertex : Nat) : CircularQueue :=
  let head := (queue.head + queue.size - 1) % queue.size
  { queue with data := Function.update queue.data head vertex, head, count := queue.count + 1 }

/-- `pop_front`: the element and what is left. -/
def popFront (queue : CircularQueue) : Nat × CircularQueue :=
  (queue.data queue.head,
    { queue with head := (queue.head + 1) % queue.size, count := queue.count - 1 })

/-- The queue holds the elements `l`, front first. -/
structure Holds (queue : CircularQueue) (l : List Nat) : Prop where
  head_lt : queue.head < queue.size
  tail_eq : queue.tail = (queue.head + queue.count) % queue.size
  count_eq : queue.count = l.length
  count_le : queue.count ≤ queue.size
  elements : ∀ i (h : i < l.length), queue.data ((queue.head + i) % queue.size) = l[i]

/-- Two offsets from the head that are apart by less than a round are two slots. -/
theorem slot_ne {size head i j : Nat} (hij : i < j) (hj : j - i < size) :
    (head + i) % size ≠ (head + j) % size := by
  intro h
  have hdvd := (Nat.modEq_iff_dvd' (Nat.add_le_add_left hij.le head)).mp h
  rw [Nat.add_sub_add_left] at hdvd
  have hle := Nat.le_of_dvd (Nat.sub_pos_of_lt hij) hdvd
  omega

variable {queue : CircularQueue} {l : List Nat}

theorem new_holds (capacity : Nat) : (new capacity).Holds [] where
  head_lt := by
    unfold new
    dsimp only
    split <;> omega
  tail_eq := (Nat.zero_mod _).symm
  count_eq := rfl
  count_le := Nat.zero_le _
  elements := fun i h => absurd h (Nat.not_lt_zero i)

theorem Holds.empty_iff (h : queue.Holds l) : queue.empty = true ↔ l = [] := by
  unfold CircularQueue.empty
  rw [decide_eq_true_eq, h.count_eq, List.length_eq_zero_iff]

theorem Holds.pushBack (h : queue.Holds l) (vertex : Nat) (hroom : l.length < queue.size) :
    (queue.pushBack vertex).Holds (l ++ [vertex]) where
  head_lt := h.head_lt
  tail_eq := by
    unfold CircularQueue.pushBack
    dsimp only
    rw [h.tail_eq, Nat.mod_add_mod, Nat.add_assoc]
  count_eq := by
    rw [List.length_append, List.length_singleton, ← h.count_eq]
    rfl
  count_le := by
    have hcount := h.count_eq
    show queue.count + 1 ≤ queue.size
    omega
  elements := by
    intro i hi
    unfold CircularQueue.pushBack
    dsimp only
    rw [List.length_append, List.length_singleton] at hi
    rw [h.tail_eq, h.count_eq]
    rcases Nat.lt_or_eq_of_le (Nat.le_of_lt_succ hi) with hlt | rfl
    · rw [Function.update_of_ne (slot_ne hlt (by omega)), List.getElem_append_left hlt]
      exact h.elements i hlt
    · rw [Function.update_self, List.getElem_append_right (Nat.le_refl _)]
      simp

theorem Holds.pushFront (h : queue.Holds l) (vertex : Nat) (hroom : l.length < queue.size) :
    (queue.pushFront vertex).Holds (vertex :: l) := by
  have hhead := h.head_lt
  -- One step from the new head is the old one.
  have hnext : ((queue.head + queue.size - 1) % queue.size + 1) % queue.size = queue.head := by
    rw [Nat.mod_add_mod, show queue.head + queue.size - 1 + 1 = queue.head + queue.size by omega,
      Nat.add_mod_right, Nat.mod_eq_of_lt hhead]
  have hslot : ∀ i, ((queue.head + queue.size - 1) % queue.size + (i + 1)) % queue.size =
      (queue.head + i) % queue.size := by
    intro i
    rw [Nat.add_comm i, ← Nat.add_assoc, ← Nat.mod_add_mod, hnext]
  refine ⟨Nat.mod_lt _ (by omega), ?_, ?_, ?_, ?_⟩
  · show queue.tail = ((queue.head + queue.size - 1) % queue.size + (queue.count + 1)) % queue.size
    rw [hslot]
    exact h.tail_eq
  · rw [List.length_cons, ← h.count_eq]
    rfl
  · have hcount := h.count_eq
    show queue.count + 1 ≤ queue.size
    omega
  · intro i hi
    unfold CircularQueue.pushFront
    dsimp only
    cases i with
    | zero =>
      rw [Nat.add_zero, Nat.mod_mod, Function.update_self]
      rfl
    | succ i =>
      have hi' : i < l.length := Nat.lt_of_succ_lt_succ hi
      have hne : (queue.head + i) % queue.size ≠ (queue.head + queue.size - 1) % queue.size := by
        rw [show queue.head + queue.size - 1 = queue.head + (queue.size - 1) by omega]
        exact slot_ne (by omega) (by omega)
      rw [hslot, Function.update_of_ne hne, List.getElem_cons_succ]
      exact h.elements i hi'

theorem Holds.front {vertex : Nat} (h : queue.Holds (vertex :: l)) : queue.front = vertex := by
  have hfirst := h.elements 0 (Nat.succ_pos _)
  rw [Nat.add_zero, Nat.mod_eq_of_lt h.head_lt] at hfirst
  exact hfirst

theorem Holds.popFront {vertex : Nat} (h : queue.Holds (vertex :: l)) :
    queue.popFront.1 = vertex ∧ queue.popFront.2.Holds l := by
  have hhead := h.head_lt
  have hcount := h.count_eq
  rw [List.length_cons] at hcount
  have hle := h.count_le
  refine ⟨h.front, Nat.mod_lt _ (by omega), ?_, ?_, ?_, ?_⟩
  · show queue.tail = ((queue.head + 1) % queue.size + (queue.count - 1)) % queue.size
    rw [Nat.mod_add_mod, h.tail_eq]
    congr 1
    omega
  · show queue.count - 1 = l.length
    omega
  · show queue.count - 1 ≤ queue.size
    omega
  · intro i hi
    have hnext := h.elements (i + 1) (Nat.succ_lt_succ hi)
    rw [List.getElem_cons_succ] at hnext
    show queue.data (((queue.head + 1) % queue.size + i) % queue.size) = l[i]
    rw [Nat.mod_add_mod, Nat.add_assoc, Nat.add_comm 1 i]
    exact hnext

end CircularQueue

end Bambu.SdcSolver
