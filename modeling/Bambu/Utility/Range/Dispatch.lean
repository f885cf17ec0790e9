/-
  Bambu.Utility.Range.Dispatch

  What `Range::add`, `sub` and the four saturating operations share: the order in
  which they read the kinds of their operands (`saturating`), the branches for an
  infinite bound (`atInfinity`) and the closing test of the result's span
  (`guardSpan`).
-/

import Bambu.Utility.Range.Accessors

namespace Bambu
namespace Range

open Bambu.Math APInt

/-- The branches for a bound stored as an infinite one. -/
def atInfinity (this : Range) (fromMin toMax rest : Except Error Range) : Except Error Range :=
  if this.l = Min then do
    throwAssert (this.u ≠ Max) ""
    fromMin
  else if this.u = Max then do
    throwAssert (this.l ≠ Min) ""
    toMax
  else rest

/-- The closing test of a result's span against those of the operands. -/
def guardSpan (this other : Range) (short : APInt → APInt → Bool) (res : Range) :
    Except Error Range := do
  if short (← res.getSpan) (← this.getSpan) || short (← res.getSpan) (← other.getSpan) then
    ofType .regular this.bw
  else .ok res

/-- The common dispatch of the four operations: an Anti range and a constant, a
    constant, anything else. -/
def saturating (this other : Range) (antiConstant : APInt → Except Error Range)
    (constant : APInt → Except Error Range → Except Error Range) (general : Except Error Range) :
    Except Error Range :=
  onProper this other this.bw do
    if ← (this.isFullSet <||> other.isFullSet) then ofType .regular this.bw
    else if this.isAnti && other.isConstant then do antiConstant (← other.getLower)
    else if this.isAnti || other.isAnti then ofType .regular this.bw
    else if other.isConstant then do constant (← other.getLower) general
    else general

section Dispatch

variable {a b : Range} {anti : APInt → Except Error Range}
  {constant : APInt → Except Error Range → Except Error Range}
  {general p q rest x : Except Error Range} {short : APInt → APInt → Bool} {v : Int}
  {w : Nat}

theorem isFull_of_infinite (ha : a.type = .regular) (hl : a.l = Min) (hu : a.u = Max) :
    a.IsFull := by
  have hcap := half_le_half a.bw_valid.2
  refine ⟨ha, ?_, ?_⟩
  · rw [hl, min_val]
    omega
  · rw [hu, max_val]
    omega

theorem not_full_of_anti (ha : a.type = .anti) (hf : ¬ b.IsFull) : ¬ (a.IsFull ∨ b.IsFull) := by
  rintro (h | h)
  · rw [h.1] at ha
    cases ha
  · exact hf h

/-- A range that is not full has both bounds within the limits. -/
theorem WellFormed.inLimits_of_not_full (hwf : a.WellFormed) (ha : a.Proper) (hf : ¬ a.IsFull) :
    a.InLimits := by
  rcases ha with ht | ht
  · exact (hwf.1 ht).resolve_left fun h => hf (isFull_of_infinite ht h.1 h.2)
  · exact hwf.2 ht

/-- Operands for which the dispatch gives up at once. -/
def Widens (a b : Range) : Prop :=
  (a.IsFull ∨ b.IsFull) ∨
    (¬ (a.type = .anti ∧ b.isConstant = true) ∧ (a.type = .anti ∨ b.type = .anti))

/-- Operands it computes with: an Anti range and a constant, or two Regular ranges. -/
def Operands (a b : Range) : Prop :=
  a.type = .anti ∧ b.isConstant = true ∨ a.type = .regular ∧ b.type = .regular

theorem widens_or (ha : a.Proper) (hb : b.Proper) :
    Widens a b ∨ ¬ (a.IsFull ∨ b.IsFull) ∧ Operands a b := by
  by_cases hf : a.IsFull ∨ b.IsFull
  · exact Or.inl (Or.inl hf)
  by_cases hc : a.type = .anti ∧ b.isConstant = true
  · exact Or.inr ⟨hf, Or.inl hc⟩
  by_cases hanti : a.type = .anti ∨ b.type = .anti
  · exact Or.inl (Or.inr ⟨hc, hanti⟩)
  · obtain ⟨hna, hnb⟩ := not_or.mp hanti
    exact Or.inr ⟨hf, Or.inr ⟨ha.resolve_right hna, hb.resolve_right hnb⟩⟩

section Sound

variable {P : Int → Int → Prop} (hua : a.type ≠ .unknown) (hub : b.type ≠ .unknown)
  (hwide : a.Proper → b.Proper → Widens a b → ∀ x ∈ a.gamma, ∀ y ∈ b.gamma, P x y)

include hua hub hwide

/-- An operation that gives up with every value is sound when it is on the
    operands it computes with. -/
theorem sound_of_operands (h : ∀ x ∈ a.gamma, ∀ y ∈ b.gamma, ¬ (a.IsFull ∨ b.IsFull) →
    Operands a b → P x y) : ∀ x ∈ a.gamma, ∀ y ∈ b.gamma, P x y := by
  intro x hx y hy
  have hpa := proper_of_mem hua hx
  have hpb := proper_of_mem hub hy
  rcases widens_or hpa hpb with hw | ⟨hf, ho⟩
  · exact hwide hpa hpb hw x hx y hy
  · exact h x hx y hy hf ho

/-- What it loses is settled on them, too. -/
theorem sound_iff_of_operands {B Loss : Prop}
    (hB : a.gamma.Nonempty → b.gamma.Nonempty → ¬ (a.IsFull ∨ b.IsFull) → B)
    (hloss : Loss → B ∧ Operands a b)
    (hanti : B → a.type = .anti → b.isConstant = true →
      ((∀ x ∈ a.gamma, ∀ y ∈ b.gamma, P x y) ↔ ¬ Loss))
    (hregular : B → a.type = .regular → b.type = .regular →
      ((∀ x ∈ a.gamma, ∀ y ∈ b.gamma, P x y) ↔ ¬ Loss)) :
    (∀ x ∈ a.gamma, ∀ y ∈ b.gamma, P x y) ↔ ¬ Loss := by
  have hcases : B → Operands a b → ((∀ x ∈ a.gamma, ∀ y ∈ b.gamma, P x y) ↔ ¬ Loss) := by
    rintro h (⟨h1, h2⟩ | ⟨h1, h2⟩)
    · exact hanti h h1 h2
    · exact hregular h h1 h2
  by_cases hl : Loss
  · exact hcases (hloss hl).1 (hloss hl).2
  · refine iff_of_true (sound_of_operands hua hub hwide fun x hx y hy hf ho => ?_) hl
    exact (hcases (hB ⟨x, hx⟩ ⟨y, hy⟩ hf) ho).mpr hl x hx y hy

/-- The rule for a loss that tells the two kinds of operands apart. -/
theorem sound_iff_of_losses {A R : Prop} (hwa : a.WellFormed) (hwb : b.WellFormed)
    (hanti : ¬ (a.IsFull ∨ b.IsFull) → a.type = .anti → b.isConstant = true → b.InLimits →
      a.gamma.Nonempty → ((∀ x ∈ a.gamma, ∀ y ∈ b.gamma, P x y) ↔ ¬ A))
    (hregular : ¬ (a.IsFull ∨ b.IsFull) → a.type = .regular → b.type = .regular → a.InLimits →
      b.InLimits → ((∀ x ∈ a.gamma, ∀ y ∈ b.gamma, P x y) ↔ ¬ R)) :
    (∀ x ∈ a.gamma, ∀ y ∈ b.gamma, P x y) ↔ ¬ (¬ a.IsFull ∧ ¬ b.IsFull ∧
      ((a.type = .anti ∧ b.isConstant = true ∧ a.gamma.Nonempty ∧ A) ∨
        (a.type = .regular ∧ b.type = .regular ∧ R))) := by
  refine sound_iff_of_operands hua hub hwide (fun _ _ hf => hf)
    (fun h => ⟨not_or.mpr ⟨h.1, h.2.1⟩, h.2.2.imp (fun h => ⟨h.1, h.2.1⟩) (fun h => ⟨h.1, h.2.1⟩)⟩)
    (fun hf hta hbc => ?_) (fun hf hta htb => ?_)
  · obtain ⟨hfa, hfb⟩ := not_or.mp hf
    have hlb := hwb.inLimits_of_not_full (Or.inl (isConstant_iff.mp hbc).1) hfb
    by_cases hne : a.gamma.Nonempty
    · refine (hanti hf hta hbc hlb hne).trans ?_
      simp only [hfa, hfb, hta, hbc, hne, reduceCtorEq, not_false_eq_true, false_and, or_false,
        true_and]
    · refine iff_of_true (fun x hx => absurd ⟨x, hx⟩ hne) ?_
      simp only [hta, hne, reduceCtorEq, false_and, and_false, or_false, not_false_eq_true]
  · obtain ⟨hfa, hfb⟩ := not_or.mp hf
    refine (hregular hf hta htb (hwa.inLimits_of_not_full (Or.inl hta) hfa)
      (hwb.inLimits_of_not_full (Or.inl htb) hfb)).trans ?_
    simp only [hfa, hfb, hta, htb, reduceCtorEq, not_false_eq_true, false_and, false_or, true_and]

end Sound

theorem saturating_of_widens (ha : a.Proper) (hb : b.Proper) (h : Widens a b) :
    saturating a b anti constant general = ofType .regular a.bw := by
  unfold saturating
  rw [onProper_of ha hb, isFullSet_or_eq ha hb, ok_bind]
  by_cases hf : a.IsFull ∨ b.IsFull
  · rw [decide_eq_true hf, if_pos rfl]
  · obtain ⟨hc, hanti⟩ := h.resolve_left hf
    rw [decide_eq_false hf, if_neg Bool.false_ne_true,
      if_neg (by rwa [Bool.and_eq_true, isAnti_iff]),
      if_pos (by rwa [Bool.or_eq_true, isAnti_iff, isAnti_iff])]

theorem holds_of_widens (ha : a.Proper) (hb : b.Proper) (h : Widens a b)
    (hv : v ∈ signedRange a.bw) : Holds (saturating a b anti constant general) a.bw v := by
  rw [saturating_of_widens ha hb h]
  exact holds_full a.bw_valid hv

theorem saturating_of_anti_constant (ha : a.type = .anti) (hb : b.isConstant = true)
    (hf : ¬ (a.IsFull ∨ b.IsFull)) : saturating a b anti constant general = anti b.l := by
  have hbr := (isConstant_iff.mp hb).1
  unfold saturating
  rw [onProper_of (Or.inr ha) (Or.inl hbr), isFullSet_or_eq (Or.inr ha) (Or.inl hbr), ok_bind,
    decide_eq_false hf, if_neg Bool.false_ne_true, if_pos (by simp [ha, hb]),
    getLower_eq (by rw [hbr]; decide), ok_bind]

theorem saturating_of_regular (ha : a.type = .regular) (hb : b.type = .regular)
    (hf : ¬ (a.IsFull ∨ b.IsFull)) : saturating a b anti constant general =
      if b.isConstant = true then constant b.l general else general := by
  unfold saturating
  rw [onProper_of (Or.inl ha) (Or.inl hb), isFullSet_or_eq (Or.inl ha) (Or.inl hb), ok_bind,
    decide_eq_false hf, if_neg Bool.false_ne_true, if_neg (by simp [ha]),
    if_neg (by simp [ha, hb]), getLower_eq (by rw [hb]; decide), ok_bind]

theorem atInfinity_of_regular (ha : a.type = .regular) (hf : ¬ a.IsFull) :
    atInfinity a p q rest = if a.l = Min then p else if a.u = Max then q else rest := by
  unfold atInfinity
  by_cases hl : a.l = Min
  · have hu : a.u ≠ Max := fun hu => hf (isFull_of_infinite ha hl hu)
    rw [if_pos hl, if_pos hl, throwAssert_of hu, ok_bind]
  · rw [if_neg hl, if_neg hl, throwAssert_of hl, ok_bind]

theorem guardSpan_of_spans {r : Range} {k s t : APInt} (hk : r.getSpan = .ok k)
    (hs : a.getSpan = .ok s) (ht : b.getSpan = .ok t) :
    guardSpan a b short r = if (short k s || short k t) = true then ofType .regular a.bw
      else .ok r := by
  unfold guardSpan
  simp only [hk, hs, ht, ok_bind]

/-- The span test only ever widens a result. -/
theorem holds_guardSpan (hw : a.bw = w) (hv : v ∈ signedRange w) (h : Holds x w v) :
    Holds (x >>= guardSpan a b short) w v := by
  subst hw
  obtain ⟨r, rfl, hr⟩ := h
  obtain ⟨k, hk⟩ := r.getSpan_ok
  obtain ⟨s, hs⟩ := a.getSpan_ok
  obtain ⟨t, ht⟩ := b.getSpan_ok
  rw [ok_bind, guardSpan_of_spans hk hs ht]
  split
  · exact holds_full a.bw_valid hv
  · exact holds_ok.mpr hr

/-- What it leaves of a result: everything, or the result itself.  The operands'
    spans are the numbers of their values. -/
theorem holds_guardSpan_iff {r : Range} {k : APInt} {rel : Int → Int → Prop} (hw : a.bw = w)
    (hrel : ∀ s t, short s t = true ↔ rel s.val t.val) (ha : a.type = .regular)
    (hla : a.InLimits) (hb : b.type = .regular) (hlb : b.InLimits)
    (hf : ¬ (a.IsFull ∨ b.IsFull)) (hk : r.getSpan = .ok k) (hv : v ∈ signedRange w) :
    Holds (guardSpan a b short r) w v ↔
      (rel k.val (1 + a.u.val - a.l.val) ∨ rel k.val (1 + b.u.val - b.l.val)) ∨
        Holds (.ok r) w v := by
  subst hw
  obtain ⟨hfa, hfb⟩ := not_or.mp hf
  obtain ⟨s, hs, hsv⟩ := getSpan_of_limits ha hla hfa
  obtain ⟨t, ht, htv⟩ := getSpan_of_limits hb hlb hfb
  rw [guardSpan_of_spans hk hs ht, ← hsv, ← htv, ← hrel, ← hrel, ← Bool.or_eq_true]
  split
  · rename_i h
    exact iff_of_true (holds_full a.bw_valid hv) (Or.inl h)
  · rename_i h
    exact (or_iff_right h).symm

theorem decide_le_iff (s t : APInt) : decide (s ≤ t) = true ↔ s.val ≤ t.val :=
  decide_eq_true_iff.trans SignMag.le_iff

theorem decide_lt_iff (s t : APInt) : decide (s < t) = true ↔ s.val < t.val :=
  decide_eq_true_iff.trans SignMag.lt_iff

end Dispatch

end Range
end Bambu
