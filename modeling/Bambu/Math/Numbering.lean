/-
  Bambu.Math.Numbering

  Elements numbered in the order they are added, kept as two maps, and lists of sets of numbers
  read back as sets of elements.
-/

import Mathlib.Data.Finset.Basic

namespace Bambu.Math

/-- The elements added so far have the numbers below `next`. -/
structure Numbering {α : Type} (num : α → Option Nat) (elem : Nat → Option α) (next : Nat) :
    Prop where
  iff : ∀ v n, num v = some n ↔ elem n = some v
  lt_iff : ∀ n, n < next ↔ ∃ v, elem n = some v

namespace Numbering

variable {α : Type} {num : α → Option Nat} {elem : Nat → Option α} {next : Nat}

/-- Two elements with one number are the same. -/
theorem unique (h : Numbering num elem next) {v w : α} {n : Nat} (hv : num v = some n)
    (hw : num w = some n) : v = w :=
  Option.some.inj (((h.iff v n).mp hv).symm.trans ((h.iff w n).mp hw))

variable [DecidableEq α]

/-- A number once given is kept when a new element is added. -/
theorem update_of_some {element v : α} {n : Nat} (hfresh : num element = none)
    (hv : num v = some n) (m : Option Nat) : Function.update num element m v = some n := by
  refine (Function.update_of_ne ?_ _ _).trans hv
  rintro rfl
  rw [hfresh] at hv
  cases hv

theorem add (h : Numbering num elem next) {element : α} (hfresh : num element = none) :
    Numbering (Function.update num element (some next)) (Function.update elem next (some element))
      (next + 1) := by
  have hlt : ∀ {v n}, elem n = some v → n ≠ next := by
    rintro v n hv rfl
    exact Nat.lt_irrefl _ ((h.lt_iff _).mpr ⟨v, hv⟩)
  refine ⟨fun v n => ?_, fun n => ?_⟩
  · by_cases hv : v = element <;> by_cases hn : n = next
    · simp [hv, hn]
    · rw [hv, Function.update_self, Function.update_of_ne hn]
      refine iff_of_false (fun heq => hn (Option.some.inj heq).symm) fun heq => ?_
      rw [← h.iff, hfresh] at heq
      cases heq
    · rw [hn, Function.update_self, Function.update_of_ne hv]
      refine iff_of_false (fun heq => ?_) fun heq => hv (Option.some.inj heq).symm
      exact hlt ((h.iff v _).mp heq) rfl
    · rw [Function.update_of_ne hv, Function.update_of_ne hn]
      exact h.iff v n
  · by_cases hn : n = next
    · rw [hn, Function.update_self]
      exact iff_of_true (Nat.lt_succ_self _) ⟨element, rfl⟩
    · rw [Function.update_of_ne hn, ← h.lt_iff]
      exact Nat.lt_succ_iff_lt_or_eq.trans (or_iff_left hn)

end Numbering

/-- The calls of `get` return the sets of the list, read back as sets of elements. -/
structure ReadsBack {α ε : Type} (get : Nat → Except ε (Finset α)) (num : α → Option Nat)
    (sets : List (Finset Nat)) : Prop where
  returns : ∀ {i s}, sets[i]? = some s → ∃ c, get i = .ok c ∧ ∀ v, v ∈ c ↔ ∃ n ∈ s, num v = some n
  fails : ∀ {i c}, sets[i]? = none → get i ≠ .ok c

namespace ReadsBack

variable {α ε : Type} {get : Nat → Except ε (Finset α)} {num : α → Option Nat}
  {sets : List (Finset Nat)}

theorem got (h : ReadsBack get num sets) {i : Nat} {c : Finset α} (hc : get i = .ok c) :
    ∃ s, sets[i]? = some s ∧ ∀ v, v ∈ c ↔ ∃ n ∈ s, num v = some n := by
  cases hi : sets[i]? with
  | none => exact absurd hc (h.fails hi)
  | some s =>
    obtain ⟨d, hd, hiff⟩ := h.returns hi
    obtain rfl : c = d := Except.ok.inj (hc.symm.trans hd)
    exact ⟨s, rfl, hiff⟩

/-- Disjoint sets are read back as disjoint sets. -/
theorem disjoint (h : ReadsBack get num sets) (hsets : sets.Pairwise Disjoint) {i j : Nat}
    {c d : Finset α} (hc : get i = .ok c) (hd : get j = .ok d) (hij : i ≠ j) : Disjoint c d := by
  obtain ⟨s, hi, hiff⟩ := h.got hc
  obtain ⟨t, hj, hiff'⟩ := h.got hd
  obtain ⟨hil, rfl⟩ := List.getElem?_eq_some_iff.mp hi
  obtain ⟨hjl, rfl⟩ := List.getElem?_eq_some_iff.mp hj
  have hdisjoint : Disjoint sets[i] sets[j] := by
    have hpair := List.pairwise_iff_getElem.mp hsets
    obtain hlt | hlt := Nat.lt_or_gt_of_ne hij
    · exact hpair i j hil hjl hlt
    · exact (hpair j i hjl hil hlt).symm
  rw [Finset.disjoint_left]
  intro v hv hv'
  obtain ⟨n, hn, hvn⟩ := (hiff v).mp hv
  obtain ⟨m, hm, hvm⟩ := (hiff' v).mp hv'
  obtain rfl := Option.some.inj (hvn.symm.trans hvm)
  exact Finset.disjoint_left.mp hdisjoint hn hm

end ReadsBack

end Bambu.Math
