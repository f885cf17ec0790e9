/-
  Bambu.Utility.Range.AddSubSound

  Soundness of `Range::add` and `Range::sub` on the ranges the constructors and
  the operations build.

  Below 4095 bits the only loss is an Anti range moved below the lower limit by
  a constant: `normalizeRange` stores its bounds in reverse order.  At 4095 bits
  a bound can land on an infinite one, and at 4096 bits the infinite bounds are
  the limits themselves; the losses there are stated with the others.
-/

import Bambu.Utility.Range.AddSubCapacity

namespace Bambu
namespace Range

open Bambu.Math APInt

/-! ## Results are built by the constructors -/

/-- Every range `x` returns is one the constructors build. -/
def Builds (x : Except Error Range) : Prop := ∀ r, x = .ok r → Built r

section Builds

variable {t : RangeType} {w : Nat} {lb ub : APInt} {a b : Range}

theorem builds_ofType : Builds (ofType t w) := fun _ h => .ofType h

theorem builds_ofBounds : Builds (ofBounds t w lb ub) := fun _ h => .ofBounds h

theorem builds_ok (h : Built a) : Builds (.ok a) := by
  intro r hr
  cases hr
  exact h

theorem builds_bind {α : Type} {x : Except Error α} {f : α → Except Error Range}
    (h : ∀ y, x = .ok y → Builds (f y)) : Builds (x >>= f) := by
  intro r hr
  cases hx : x with
  | error e =>
    rw [hx] at hr
    cases hr
  | ok y =>
    rw [hx] at hr
    exact h y hx r hr

theorem builds_ite {p : Prop} [Decidable p] {x y : Except Error Range} (hx : Builds x)
    (hy : Builds y) : Builds (if p then x else y) := by
  split
  · exact hx
  · exact hy

theorem builds_onProper {body : Except Error Range} (h : Builds body) :
    Builds (onProper a b w body) := by
  unfold onProper
  exact builds_ite builds_ofType (builds_ite builds_ofType h)

theorem builds_add : Builds (a.add b) := by
  unfold add
  refine builds_onProper (builds_bind fun _ _ => builds_ite builds_ofType (builds_ite
    (builds_bind fun _ _ => builds_ite builds_ofType builds_ofBounds) (builds_ite builds_ofType
    (builds_ite (builds_bind fun _ _ => ?_) ?_))))
  · refine builds_ite (builds_bind fun _ _ => builds_ofBounds) (builds_ite ?_ builds_ofBounds)
    exact builds_bind fun _ _ => builds_ofBounds
  · refine builds_bind fun _ _ => builds_bind fun _ _ => builds_bind fun _ _ =>
      builds_bind fun _ _ => builds_bind fun res hres => ?_
    refine builds_bind fun _ _ => builds_bind fun _ _ => builds_bind fun _ _ =>
      builds_bind fun _ _ => builds_ite builds_ofType (builds_ok (.ofBounds hres))

theorem builds_sub : Builds (a.sub b) := by
  unfold sub
  refine builds_onProper (builds_bind fun _ _ => builds_ite builds_ofType (builds_ite
    (builds_bind fun _ _ => builds_ite builds_ofType builds_ofBounds) (builds_ite builds_ofType
    (builds_ite (builds_bind fun _ _ => ?_) ?_))))
  · refine builds_ite (builds_bind fun _ _ => builds_ite builds_ofType builds_ofBounds)
      (builds_ite ?_ (builds_ite builds_ofBounds builds_ofBounds))
    exact builds_bind fun _ _ => builds_ite builds_ofType builds_ofBounds
  · refine builds_bind fun _ _ => builds_bind fun _ _ => builds_bind fun _ _ =>
      builds_bind fun _ _ => builds_bind fun res hres => ?_
    refine builds_bind fun _ _ => builds_bind fun _ _ => builds_bind fun _ _ =>
      builds_bind fun _ _ => builds_ite builds_ofType (builds_ok (.ofBounds hres))

end Builds

/-! ## The losses -/

/-- Both operands are within the limits, and neither is the full set. -/
def Bounded (a b : Range) : Prop := (a.InLimits ∧ b.InLimits) ∧ ¬ (a.IsFull ∨ b.IsFull)

/-- The operands whose sum loses a value: an Anti range moved below the lower
    limit by a constant; one bit below the capacity, two Regular ranges whose
    lower bounds add up to `Min`; at the capacity, Regular ranges whose moved
    bounds are or pass an infinite one. -/
def AddLoss (a b : Range) : Prop :=
  Bounded a b ∧
    ((a.type = .anti ∧ b.isConstant = true ∧ a.bw < maxDigits ∧
        -half maxDigits < a.l.val + b.l.val ∧
        a.l.val < a.u.val ∧ a.u.val + b.l.val < -half a.bw) ∨
      (a.type = .regular ∧ b.type = .regular ∧ a.bw + 1 = maxDigits ∧
        a.l.val = -half a.bw ∧ b.l.val = -half a.bw ∧
        if b.isConstant = true then 0 ≤ a.u.val
        else 0 < a.u.val ∧ 0 < b.u.val ∧ a.u.val + b.u.val < half a.bw - 1) ∨
      (a.type = .regular ∧ b.type = .regular ∧ a.bw = maxDigits ∧
        if b.isConstant = true then ShiftLoss a.l.val a.u.val b.l.val
        else a.l.val < a.u.val ∧ half maxDigits ≤ a.l.val + b.l.val))

/-- The operands whose difference loses a value. -/
def SubLoss (a b : Range) : Prop :=
  Bounded a b ∧
    ((a.type = .anti ∧ b.isConstant = true ∧ a.bw < maxDigits ∧
        a.l.val < a.u.val ∧ a.u.val - b.l.val < -half a.bw) ∨
      (a.type = .regular ∧ b.type = .regular ∧ a.bw + 1 = maxDigits ∧ ¬ b.isConstant = true ∧
        a.u.val = half a.bw - 1 ∧ b.l.val = -half a.bw ∧
        0 ≤ b.u.val ∧ a.l.val < 0 ∧ -half a.bw < a.l.val - b.u.val) ∨
      (a.type = .regular ∧ b.type = .regular ∧ a.bw = maxDigits ∧
        if b.isConstant = true then ShiftLoss a.l.val a.u.val (-b.l.val)
        else half maxDigits ≤ a.l.val - b.u.val ∧
          ¬ (a.u.val = half maxDigits - 1 ∧ b.l.val = -half maxDigits)))

section Sound

variable {a b : Range}

theorem four_mul_half_le {w : Nat} (h0 : 0 < w) (hw : w + 1 < maxDigits) :
    4 * half w ≤ half maxDigits := by
  have h1 := two_mul_half_le h0 (Nat.lt_succ_self w)
  have h2 := two_mul_half_le (Nat.succ_pos w) hw
  omega

/-- A built Regular range with a value in it is full or within the limits. -/
theorem Built.full_or_inLimits (h : Built a) (ht : a.type = .regular) {x : Int}
    (hx : x ∈ a.gamma) : a.IsFull ∨ a.InLimits := by
  rcases h.inLimits_of_regular ht hx with ⟨hl, hu⟩ | h
  · exact Or.inl (isFull_of_infinite ht hl hu)
  · exact Or.inr h

/-- Two operands with values, neither of them full, are bounded. -/
theorem bounded_of_not_full (ha : Built a) (hb : Built b) (hua : a.type ≠ .unknown)
    (hub : b.type ≠ .unknown) (hx : a.gamma.Nonempty) (hy : b.gamma.Nonempty)
    (hf : ¬ (a.IsFull ∨ b.IsFull)) : Bounded a b := by
  have hlim : ∀ {r : Range}, Built r → r.type ≠ .unknown → r.gamma.Nonempty → ¬ r.IsFull →
      r.InLimits := by
    rintro r hr hu ⟨z, hz⟩ hf
    rcases proper_of_mem hu hz with h | h
    · exact (hr.full_or_inLimits h hz).resolve_left hf
    · exact (hr.inLimits_of_anti h hz).1
  obtain ⟨hfa, hfb⟩ := not_or.mp hf
  exact ⟨⟨hlim ha hua hx hfa, hlim hb hub hy hfb⟩, hf⟩

theorem AddLoss.operands (h : AddLoss a b) : Bounded a b ∧ Operands a b := by
  obtain ⟨hbd, ⟨h1, h2, -⟩ | ⟨h1, h2, -⟩ | ⟨h1, h2, -⟩⟩ := h
  · exact ⟨hbd, Or.inl ⟨h1, h2⟩⟩
  · exact ⟨hbd, Or.inr ⟨h1, h2⟩⟩
  · exact ⟨hbd, Or.inr ⟨h1, h2⟩⟩

theorem SubLoss.operands (h : SubLoss a b) : Bounded a b ∧ Operands a b := by
  obtain ⟨hbd, ⟨h1, h2, -⟩ | ⟨h1, h2, -⟩ | ⟨h1, h2, -⟩⟩ := h
  · exact ⟨hbd, Or.inl ⟨h1, h2⟩⟩
  · exact ⟨hbd, Or.inr ⟨h1, h2⟩⟩
  · exact ⟨hbd, Or.inr ⟨h1, h2⟩⟩

theorem addSound_anti_bounded_iff (ha : Built a) (hbw : b.bw = a.bw) (hta : a.type = .anti)
    (hc : b.isConstant = true) (hbd : Bounded a b) : AddSound a b ↔ ¬ AddLoss a b := by
  obtain ⟨⟨hla, hlb⟩, hf⟩ := hbd
  have hloss : AddLoss a b ↔ a.bw < maxDigits ∧ -half maxDigits < a.l.val + b.l.val ∧
      a.l.val < a.u.val ∧ a.u.val + b.l.val < -half a.bw := by
    unfold AddLoss Bounded
    simp only [hla, hlb, hf, hta, hc, true_and, reduceCtorEq, false_and, or_false,
      not_false_eq_true]
  rw [hloss]
  rcases Nat.lt_or_eq_of_le a.bw_valid.2 with hlt | heq
  · by_cases hmin : -half maxDigits < a.l.val + b.l.val
    · rw [addSound_anti_iff hlt hbw hta hla hc hlb (fun h => hf (Or.inr h)) hmin]
      exact not_congr ⟨fun h => ⟨hlt, hmin, h⟩, fun h => h.2.2⟩
    · -- both lower bounds are the lower limit, one bit below the capacity
      have h1 := hla.1
      have h2 := hlb.1
      have hcap := two_mul_half_le a.bw_valid.1 hlt
      rw [hbw] at h2
      have hnear : a.bw + 1 = maxDigits := by
        by_contra hne
        have := four_mul_half_le a.bw_valid.1 (show a.bw + 1 < maxDigits by omega)
        have := half_pos a.bw
        omega
      exact iff_of_true (addSound_anti_corner hnear hta hla hc hlb (fun h => hf (Or.inr h))
        (by omega) (by omega)) (fun h => hmin h.2.1)
  · refine iff_of_true (fun x hx y hy => ?_) (fun h => by omega)
    exact addSound_anti_capacity heq hbw hta hla ((ha.inLimits_of_anti hta hx).2 heq) hc hlb hf
      x hx y hy

theorem subSound_anti_bounded_iff (ha : Built a) (hbw : b.bw = a.bw) (hta : a.type = .anti)
    (hc : b.isConstant = true) (hbd : Bounded a b) : SubSound a b ↔ ¬ SubLoss a b := by
  obtain ⟨⟨hla, hlb⟩, hf⟩ := hbd
  have hloss : SubLoss a b ↔ a.bw < maxDigits ∧ a.l.val < a.u.val ∧
      a.u.val - b.l.val < -half a.bw := by
    unfold SubLoss Bounded
    simp only [hla, hlb, hf, hta, hc, true_and, reduceCtorEq, false_and, or_false,
      not_false_eq_true]
  rw [hloss]
  rcases Nat.lt_or_eq_of_le a.bw_valid.2 with hlt | heq
  · by_cases hmax : a.u.val - b.l.val < half maxDigits - 1
    · rw [subSound_anti_iff hlt hbw hta hla hc hlb (fun h => hf (Or.inr h)) hmax]
      exact not_congr ⟨fun h => ⟨hlt, h⟩, fun h => h.2⟩
    · have h1 := hla.2.2
      have h2 := hlb.1
      have hcap := two_mul_half_le a.bw_valid.1 hlt
      have hP := half_pos a.bw
      rw [hbw] at h2
      have hnear : a.bw + 1 = maxDigits := by
        by_contra hne
        have := four_mul_half_le a.bw_valid.1 (show a.bw + 1 < maxDigits by omega)
        omega
      exact iff_of_true (subSound_anti_corner hnear hta hla hc hlb (fun h => hf (Or.inr h))
        (by omega) (by omega)) (fun h => by omega)
  · refine iff_of_true (fun x hx y hy => ?_) (fun h => by omega)
    exact subSound_anti_capacity heq hbw hta hla ((ha.inLimits_of_anti hta hx).2 heq) hc hlb hf
      x hx y hy

theorem addSound_regular_bounded_iff (hbw : b.bw = a.bw) (hta : a.type = .regular)
    (htb : b.type = .regular) (hbd : Bounded a b) : AddSound a b ↔ ¬ AddLoss a b := by
  have hbd' := hbd
  obtain ⟨⟨hla, hlb⟩, hf⟩ := hbd'
  have hP := half_pos a.bw
  have h0 := a.bw_valid.1
  have h1 := hla.1
  have h2 := hlb.1
  rw [hbw] at h2
  rcases Nat.lt_or_eq_of_le a.bw_valid.2 with hlt | heq
  · have hcap := two_mul_half_le h0 hlt
    by_cases hmin : -half maxDigits < a.l.val + b.l.val
    · refine iff_of_true (addSound_regular hlt hbw hta hla htb hlb hf hmin) ?_
      rintro ⟨-, ⟨h, -⟩ | ⟨-, -, hnear, hl1, hl2, -⟩ | ⟨-, -, h, -⟩⟩
      · rw [hta] at h
        cases h
      · have := half_of_succ h0 hnear
        omega
      · omega
    have hnear : a.bw + 1 = maxDigits := by
      by_contra hne
      have := four_mul_half_le h0 (show a.bw + 1 < maxDigits by omega)
      omega
    have hloss : AddLoss a b ↔ if b.isConstant = true then 0 ≤ a.u.val
        else 0 < a.u.val ∧ 0 < b.u.val ∧ a.u.val + b.u.val < half a.bw - 1 := by
      unfold AddLoss
      simp only [hbd, hta, htb, hnear, hlt.ne, show a.l.val = -half a.bw by omega,
        show b.l.val = -half a.bw by omega, true_and, reduceCtorEq, false_and, false_or, or_false]
    rw [hloss]
    by_cases hc : b.isConstant = true
    · rw [if_pos hc, addSound_constant_corner hnear hta hla hc hlb hf (by omega) (by omega)]
      omega
    · rw [if_neg hc]
      exact addSound_regular_corner hnear hbw hta hla htb hlb hc hf (by omega) (by omega)
  · have hloss : AddLoss a b ↔ if b.isConstant = true then ShiftLoss a.l.val a.u.val b.l.val
        else a.l.val < a.u.val ∧ half maxDigits ≤ a.l.val + b.l.val := by
      unfold AddLoss
      simp only [hbd, hta, htb, heq, Nat.succ_ne_self, true_and, reduceCtorEq, false_and, false_or]
    rw [hloss]
    by_cases hc : b.isConstant = true
    · rw [if_pos hc]
      exact addSound_constant_capacity_iff heq hbw hta hla hc hlb hf
    · rw [if_neg hc]
      exact addSound_regular_capacity_iff heq hbw hta hla htb hlb hc hf

theorem subSound_regular_bounded_iff (hbw : b.bw = a.bw) (hta : a.type = .regular)
    (htb : b.type = .regular) (hbd : Bounded a b) : SubSound a b ↔ ¬ SubLoss a b := by
  have hbd' := hbd
  obtain ⟨⟨hla, hlb⟩, hf⟩ := hbd'
  have hP := half_pos a.bw
  have h0 := a.bw_valid.1
  have h1 := hla.2.2
  have h2 := hlb.1
  rw [hbw] at h2
  rcases Nat.lt_or_eq_of_le a.bw_valid.2 with hlt | heq
  · have hcap := two_mul_half_le h0 hlt
    by_cases hmax : b.isConstant = true ∨ a.u.val - b.l.val < half maxDigits - 1
    · refine iff_of_true (subSound_regular hlt hbw hta hla htb hlb hf hmax) ?_
      rintro ⟨-, ⟨h, -⟩ | ⟨-, -, hnear, hc, hu1, hl2, -⟩ | ⟨-, -, h, -⟩⟩
      · rw [hta] at h
        cases h
      · have := half_of_succ h0 hnear
        have := hmax.resolve_left hc
        omega
      · omega
    obtain ⟨hc, hmax⟩ := not_or.mp hmax
    have hnear : a.bw + 1 = maxDigits := by
      by_contra hne
      have := four_mul_half_le h0 (show a.bw + 1 < maxDigits by omega)
      omega
    have hloss : SubLoss a b ↔ 0 ≤ b.u.val ∧ a.l.val < 0 ∧
        -half a.bw < a.l.val - b.u.val := by
      unfold SubLoss
      simp only [hbd, hta, htb, hnear, hlt.ne, hc, show a.u.val = half a.bw - 1 by omega,
        show b.l.val = -half a.bw by omega, true_and, reduceCtorEq, false_and, false_or, or_false,
        Bool.false_eq_true, not_false_eq_true]
    rw [hloss]
    exact subSound_regular_corner hnear hbw hta hla htb hlb hc hf (by omega) (by omega)
  · have hloss : SubLoss a b ↔ if b.isConstant = true then ShiftLoss a.l.val a.u.val (-b.l.val)
        else half maxDigits ≤ a.l.val - b.u.val ∧
          ¬ (a.u.val = half maxDigits - 1 ∧ b.l.val = -half maxDigits) := by
      unfold SubLoss
      simp only [hbd, hta, htb, heq, Nat.succ_ne_self, true_and, reduceCtorEq, false_and, false_or]
    rw [hloss]
    by_cases hc : b.isConstant = true
    · rw [if_pos hc]
      exact subSound_constant_capacity_iff heq hbw hta hla hc hlb hf
    · rw [if_neg hc]
      exact subSound_regular_capacity_iff heq hbw hta hla htb hlb hc hf

theorem addSound_iff (ha : Built a) (hb : Built b) (hbw : b.bw = a.bw) (hua : a.type ≠ .unknown)
    (hub : b.type ≠ .unknown) : AddSound a b ↔ ¬ AddLoss a b :=
  sound_iff_of_operands hua hub (fun hpa hpb h => sound_of_full (add_of_widens hpa hpb h))
    (bounded_of_not_full ha hb hua hub) AddLoss.operands
    (fun hbd hta hc => addSound_anti_bounded_iff ha hbw hta hc hbd)
    (fun hbd hta htb => addSound_regular_bounded_iff hbw hta htb hbd)

theorem subSound_iff (ha : Built a) (hb : Built b) (hbw : b.bw = a.bw) (hua : a.type ≠ .unknown)
    (hub : b.type ≠ .unknown) : SubSound a b ↔ ¬ SubLoss a b :=
  sound_iff_of_operands hua hub (fun hpa hpb h => sound_of_full (sub_of_widens hpa hpb h))
    (bounded_of_not_full ha hb hua hub) SubLoss.operands
    (fun hbd hta hc => subSound_anti_bounded_iff ha hbw hta hc hbd)
    (fun hbd hta htb => subSound_regular_bounded_iff hbw hta htb hbd)

end Sound

/-! ## The operations together -/

/-- The operands for which addition and subtraction keep every result. -/
theorem add_sub_sound_iff (a b : Range) (ha : Built a) (hb : Built b) (hbw : b.bw = a.bw)
    (hua : a.type ≠ .unknown) (hub : b.type ≠ .unknown) :
    (AddSound a b ↔ ¬ AddLoss a b) ∧ (SubSound a b ↔ ¬ SubLoss a b) :=
  ⟨addSound_iff ha hb hbw hua hub, subSound_iff ha hb hbw hua hub⟩

/-- An anti range, a constant and an interval of eight bits; the sum of the first
    two loses the constant itself. -/
def lostSum : {p : Range × Range × Range // ofBounds .anti 8 (-100) (-90) = .ok p.1 ∧
    ofBounds .regular 8 (-90) (-90) = .ok p.2.1 ∧ ofBounds .regular 8 3 7 = .ok p.2.2 ∧
    (0 : Int) ∈ p.1.gamma ∧ (-90 : Int) ∈ p.2.1.gamma ∧
    ¬ Holds (p.1.add p.2.1) 8 (signedResidue 8 (0 + -90))} :=
  ⟨(⟨-100, -90, 8, .anti, bwValid_eight⟩, ⟨-90, -90, 8, .regular, bwValid_eight⟩,
    ⟨3, 7, 8, .regular, bwValid_eight⟩), by decide +kernel⟩

theorem add_sub_sound_iff_at_eight :
    (AddSound ⟨-100, -90, 8, .anti, by decide⟩ ⟨3, 7, 8, .regular, by decide⟩ ↔
      ¬ AddLoss ⟨-100, -90, 8, .anti, by decide⟩ ⟨3, 7, 8, .regular, by decide⟩) ∧
    (SubSound ⟨-100, -90, 8, .anti, by decide⟩ ⟨3, 7, 8, .regular, by decide⟩ ↔
      ¬ SubLoss ⟨-100, -90, 8, .anti, by decide⟩ ⟨3, 7, 8, .regular, by decide⟩) := by
  obtain ⟨ha, -, hb, -⟩ := lostSum.property
  exact add_sub_sound_iff _ _ (.ofBounds ha) (.ofBounds hb) rfl (by decide) (by decide)

/-- Everything but eleven values of eight bits, minus ninety: nothing is left,
    and the sum of zero and minus ninety is lost. -/
theorem add_sub_not_sound :
    ¬ ∀ a b : Range, Built a → Built b → b.bw = a.bw → a.type ≠ .unknown → b.type ≠ .unknown →
      AddSound a b ∧ SubSound a b := by
  intro h
  obtain ⟨ha, hb, -, hx, hy, hlost⟩ := lostSum.property
  exact hlost ((h _ _ (.ofBounds ha) (.ofBounds hb) rfl (by decide) (by decide)).1 0 hx (-90) hy)

end Range
end Bambu
