/-
  Bambu.Math.Numerals

  Numerals as lists of digits, the most significant one first.

  Without leading zeros a shorter numeral stands for the smaller number, and numerals of one length
  are ordered as lists (`value_lt_iff`).  The order of a list of numerals only depends on that of
  its elements (`map_lt_map_iff`).
-/

import Mathlib.Data.List.Lex
import Mathlib.Data.Prod.Lex
import Mathlib.Algebra.Order.Ring.Nat

namespace Bambu.Math

/-! ## Lists whose elements are ordered alike -/

section Map

variable {α β γ : Type} [LinearOrder β] [LinearOrder γ] {f : α → β} {g : α → γ}

/-- Two maps that order the elements of two lists alike order the lists alike. -/
theorem map_lt_map_iff {l m : List α}
    (h : ∀ x ∈ l, ∀ y ∈ m, (f x < f y ↔ g x < g y) ∧ (f x = f y ↔ g x = g y)) :
    l.map f < m.map f ↔ l.map g < m.map g := by
  induction l generalizing m with
  | nil =>
    cases m with
    | nil => simp
    | cons y m => simp
  | cons x l ih =>
    cases m with
    | nil => simp
    | cons y m =>
      obtain ⟨hlt, heq⟩ := h x List.mem_cons_self y List.mem_cons_self
      have hrest := ih (m := m) fun x' hx' y' hy' =>
        h x' (List.mem_cons_of_mem x hx') y' (List.mem_cons_of_mem y hy')
      rw [List.map_cons, List.map_cons, List.map_cons, List.map_cons, List.cons_lt_cons_iff,
        List.cons_lt_cons_iff, hlt, heq, hrest]

end Map

/-! ## The value of a numeral -/

variable {base : Nat} {a b : List Nat}

/-- The number that a numeral stands for. -/
def value (base : Nat) : List Nat → Nat
  | [] => 0
  | d :: rest => d * base ^ rest.length + value base rest

/-- Digits are below the base. -/
def Digits (base : Nat) (a : List Nat) : Prop := ∀ d ∈ a, d < base

theorem value_lt (ha : Digits base a) : value base a < base ^ a.length := by
  induction a with
  | nil => exact Nat.one_pos
  | cons d a ih =>
    have hd : d + 1 ≤ base := ha d List.mem_cons_self
    have hrest := ih fun e he => ha e (List.mem_cons_of_mem d he)
    calc value base (d :: a) < d * base ^ a.length + base ^ a.length := Nat.add_lt_add_left hrest _
      _ = (d + 1) * base ^ a.length := (Nat.succ_mul _ _).symm
      _ ≤ base * base ^ a.length := Nat.mul_le_mul_right _ hd
      _ = base ^ (d :: a).length := by rw [List.length_cons, Nat.pow_succ, Nat.mul_comm]

/-- A first digit that is not zero. -/
theorem le_value {d : Nat} (hd : d ≠ 0) (a : List Nat) : base ^ a.length ≤ value base (d :: a) := by
  have hone : 1 * base ^ a.length ≤ d * base ^ a.length :=
    Nat.mul_le_mul_right _ (Nat.one_le_iff_ne_zero.mpr hd)
  rw [value]
  omega

/-- Numerals of one length are ordered as lists. -/
theorem value_lt_of_lt (ha : Digits base a) (hlen : a.length = b.length) (h : a < b) :
    value base a < value base b := by
  induction a generalizing b with
  | nil =>
    cases b with
    | nil => exact absurd h (lt_irrefl _)
    | cons e b => cases hlen
  | cons d a ih =>
    cases b with
    | nil => cases hlen
    | cons e b =>
      have hlen' : a.length = b.length := Nat.succ.inj hlen
      have ha' : Digits base a := fun c hc => ha c (List.mem_cons_of_mem d hc)
      rw [value, value, ← hlen']
      rcases List.cons_lt_cons_iff.mp h with hlt | ⟨rfl, hlt⟩
      · -- The first digit decides.
        have hle : (d + 1) * base ^ a.length ≤ e * base ^ a.length := Nat.mul_le_mul_right _ hlt
        have hrest := value_lt ha'
        rw [Nat.succ_mul] at hle
        omega
      · exact Nat.add_lt_add_left (ih ha' hlen' hlt) _

/-- There is a digit, and the first one of several is not zero. -/
def NoLeadingZero (a : List Nat) : Prop := a.length = 1 ∨ ∃ d rest, a = d :: rest ∧ d ≠ 0

theorem NoLeadingZero.pos (h : NoLeadingZero a) : 0 < a.length := by
  rcases h with hone | ⟨d, rest, rfl, -⟩
  · omega
  · exact Nat.succ_pos _

/-- The key by which numerals are compared: the length first. -/
def lengthKey {α : Type} (a : List α) : ℕ ×ₗ List α := toLex (a.length, a)

theorem lengthKey_lt_iff {α : Type} [LinearOrder α] {a b : List α} :
    lengthKey a < lengthKey b ↔ a.length < b.length ∨ a.length = b.length ∧ a < b :=
  Prod.Lex.toLex_lt_toLex

theorem lengthKey_inj {α : Type} {a b : List α} : lengthKey a = lengthKey b ↔ a = b :=
  ⟨fun h => congrArg (fun k => (ofLex k).2) h, congrArg lengthKey⟩

theorem value_lt_of_lengthKey_lt (ha : Digits base a) (hza : NoLeadingZero a)
    (hzb : NoLeadingZero b) (h : lengthKey a < lengthKey b) : value base a < value base b := by
  rcases lengthKey_lt_iff.mp h with hlen | ⟨hlen, hlt⟩
  · have hpos := hza.pos
    rcases hzb with hone | ⟨d, rest, rfl, hd⟩
    · omega
    · have hbase : 0 < base := by
        obtain ⟨e, a, rfl⟩ := List.exists_cons_of_length_pos hpos
        exact (Nat.zero_le e).trans_lt (ha e List.mem_cons_self)
      calc value base a < base ^ a.length := value_lt ha
        _ ≤ base ^ rest.length := Nat.pow_le_pow_right hbase (Nat.le_of_lt_succ hlen)
        _ ≤ value base (d :: rest) := le_value hd rest
  · exact value_lt_of_lt ha hlen hlt

/-- Numerals without leading zeros are ordered by length, and as lists within a length. -/
theorem value_lt_iff (ha : Digits base a) (hb : Digits base b) (hza : NoLeadingZero a)
    (hzb : NoLeadingZero b) :
    (value base a < value base b ↔ lengthKey a < lengthKey b) ∧
      (value base a = value base b ↔ lengthKey a = lengthKey b) := by
  have hab := value_lt_of_lengthKey_lt ha hza hzb
  have hba := value_lt_of_lengthKey_lt hb hzb hza
  rcases lt_trichotomy (lengthKey a) (lengthKey b) with hlt | heq | hgt
  · exact ⟨iff_of_true (hab hlt) hlt, iff_of_false (hab hlt).ne hlt.ne⟩
  · have hsame : value base a = value base b := congrArg (value base) (lengthKey_inj.mp heq)
    exact ⟨iff_of_false hsame.not_lt heq.not_lt, iff_of_true hsame heq⟩
  · exact ⟨iff_of_false (hba hgt).asymm hgt.asymm, iff_of_false (hba hgt).ne' hgt.ne'⟩

end Bambu.Math
