/-
  Bambu.Algorithms.RangeAnalysis.Widen

  `Meet::widen` as a widening: what it stores holds the old and the new range, and a chain of
  stored ranges is finite.

  Two intervals grow to a hull with jump-set bounds, two holes shrink, an interval and a hole
  are united.  An interval or nothing evaluated in place of a hole, or nothing in place of
  an interval, is handed on as it is: there the old values are lost (`WidenLoses`), and a
  sink can swing back and forth for ever (`Reverts`).  Elsewhere each change adds a value, or
  turns an interval into a hole for good, so that the loop ends.
-/

import Bambu.Algorithms.RangeAnalysis.Meet

namespace Bambu

open Bambu.Math APInt

namespace Range

/-! ## Ranges that the constructor returns -/

section Returned

variable {w : Nat} {t : RangeType} {lb ub : APInt} {r : Range}

/-- A value that is lost between the infinite lower bound and an upper bound above the limits:
the constructor reads such bounds as unsigned ones. -/
def FromMinWraps (w : Nat) (lb ub v : Int) : Prop :=
  lb = -half maxDigits ∧ half w ≤ ub ∧ ub < 2 * half w - 1 ∧ ub - 2 * half w + 1 ≤ v ∧ v ≤ -1

/-- The hull of values of the width, with bounds that may lie outside of its limits. -/
theorem ofBounds_regular_hull (hw : 0 < w ∧ w ≤ maxDigits) (hlo : -half maxDigits ≤ lb.val)
    (hlb : lb.val < half w) (hle : lb.val ≤ ub.val) (hub : -half w ≤ ub.val)
    (hhi : ub.val ≤ half maxDigits - 1) :
    ∃ r, ofBounds .regular w lb ub = .ok r ∧ r.bw = w ∧ r.WellFormed ∧
      ∀ v ∈ signedRange w, lb.val ≤ v → v ≤ ub.val →
        (v ∈ r.gamma ↔ ¬ FromMinWraps w lb.val ub.val v) := by
  have hP := half_pos w
  have hcap := half_le_half hw.2
  have hshape : ∀ r, ofBounds .regular w lb ub = .ok r → r.WellFormed := by
    refine (constructor_wellFormed_iff w hw.1 hw.2 .regular lb ub).mpr ?_
    unfold ConstructorBreaks
    dsimp only
    rw [if_pos hle]
    rintro ⟨-, ⟨-, h, -⟩ | ⟨rfl, h | ⟨-, h⟩⟩⟩ <;> omega
  -- A range of known bounds, and what it holds.
  have hyields : ∀ {t : RangeType} {p q : Int}, Yields (ofBounds .regular w lb ub) w t p q →
      (∀ v ∈ signedRange w, lb.val ≤ v → v ≤ ub.val →
        (TypeMem t p q v ↔ ¬ FromMinWraps w lb.val ub.val v)) →
      ∃ r, ofBounds .regular w lb ub = .ok r ∧ r.bw = w ∧ r.WellFormed ∧
        ∀ v ∈ signedRange w, lb.val ≤ v → v ≤ ub.val →
          (v ∈ r.gamma ↔ ¬ FromMinWraps w lb.val ub.val v) := by
    rintro t p q ⟨r, hr, rfl, rfl, rfl, rfl⟩ hmem
    refine ⟨r, hr, rfl, hshape r hr, fun v hv h1 h2 => ?_⟩
    rw [← hmem v hv h1 h2]
    exact ⟨fun h => h.2, fun h => ⟨hv, h⟩⟩
  have hnone : ∀ {v : Int}, ¬ (half w ≤ ub.val ∧ ub.val < 2 * half w - 1) ∨
      lb.val ≠ -half maxDigits → ¬ FromMinWraps w lb.val ub.val v := by
    rintro v hor ⟨h1, h2, h3, -⟩
    exact hor.elim (fun h => h ⟨h2, h3⟩) (fun h => h h1)
  by_cases hmin : lb.val = -half maxDigits
  · by_cases hmax : ub.val = half maxDigits - 1
    · obtain ⟨r, hr, hbw, hg⟩ := denotes_infinite hw
      rw [← eq_min_iff.mpr hmin, ← eq_max_iff.mpr hmax] at hr
      refine ⟨r, hr, hbw, hshape r hr, fun v hv _ _ => ?_⟩
      rw [hg]
      refine iff_of_true hv (hnone (.inl ?_))
      rcases Nat.lt_or_eq_of_le hw.2 with hlt | rfl
      · have := two_mul_half_le hw.1 hlt
        omega
      · omega
    rcases Int.lt_or_le ub.val (half w) with hin | hout
    · refine hyields (yields_regular_fromMin hw hmin (by omega) hmax
        ((normalizeFromMin_inside hw hub hin).repair hub)) fun v hv _ h2 => ?_
      exact iff_of_true ⟨hv.1, h2⟩ (hnone (.inl (by omega)))
    have hlt : w < maxDigits := by
      refine lt_of_le_of_ne hw.2 ?_
      rintro rfl
      omega
    rcases Int.lt_or_le ub.val (2 * half w - 1) with hnear | hfar
    · -- The bound is read modulo the width, and what it leaves out is negative.
      refine hyields (yields_regular_fromMin hw hmin (by omega) hmax
        ((normalizeFromMin_above hw.1 hlt hout hnear).repair (by omega))) fun v hv _ _ => ?_
      unfold FromMinWraps TypeMem
      dsimp only
      omega
    · refine hyields (yields_regular_fromMin hw hmin (by omega) hmax
        ((normalizeFromMin_far hw.1 hlt hfar).repair_crossed (by omega))) fun v hv _ _ => ?_
      exact iff_of_true (typeMem_full hw.2 hv) (hnone (.inl (by omega)))
  by_cases hmax : ub.val = half maxDigits - 1
  · rcases Int.lt_or_le lb.val (-half w) with hout | hin
    · refine hyields (yields_regular_toMax hw (by omega) hmin (by omega) hmax
        ((normalizeToMax_below hw hout).repair_crossed (by omega))) fun v hv _ _ => ?_
      exact iff_of_true (typeMem_full hw.2 hv) (hnone (.inr hmin))
    · refine hyields (yields_regular_toMax hw (by omega) hmin (by omega) hmax
        ((normalizeToMax_inside hw hin hlb).repair (by omega))) fun v hv h1 _ => ?_
      have hv2 := hv.2
      exact iff_of_true ⟨h1, by omega⟩ (hnone (.inr hmin))
  · have hsound : RegularSound w lb ub := by
      rcases Nat.lt_or_eq_of_le hw.2 with hlt | rfl
      · exact regularSound_of_meets hw.1 hlt (by omega) hle (by omega) hlb hub
      · exact regularSound_maxDigits (by omega) hle (by omega)
    have hself : ∀ v ∈ signedRange w, lb.val ≤ v → v ≤ ub.val →
        Holds (ofBounds .regular w lb ub) w v := fun v hv h1 h2 =>
      hsound v hv ⟨v, ⟨h1, h2⟩, Int.ModEq.refl v⟩
    obtain ⟨r, hr, hbw, -⟩ := hself (max lb.val (-half w)) ⟨le_max_right _ _, by omega⟩
      (le_max_left _ _) (by omega)
    refine ⟨r, hr, hbw, hshape r hr, fun v hv h1 h2 => iff_of_true ?_ (hnone (.inr hmin))⟩
    obtain ⟨r', hr', -, hv'⟩ := hself v hv h1 h2
    rw [hr] at hr'
    injection hr' with hr'
    rwa [hr']

end Returned

theorem isSameRange_iff_eq {a b : Range} : a.isSameRange b = true ↔ a = b := by
  rw [isSameRange_iff]
  obtain ⟨l, u, bw, t, h⟩ := a
  obtain ⟨l', u', bw', t', h'⟩ := b
  simp only [mk.injEq]
  tauto

theorem isFullSet_of_empty {a : Range} (h : a.type = .empty) : a.isFullSet = .ok false := by
  unfold isFullSet
  rw [throwAssert_of (by rw [Range.isUnknown_iff, h]; exact RangeType.noConfusion), ok_bind,
    if_pos (by rw [Bool.or_eq_true, Range.isEmpty_iff]; exact .inl h)]

end Range

namespace Meet

open Range

/-! ## The four cases -/

section Cases

variable {cv : List APInt} {old new : Range}

/-- The test for the cases in which a range other than an interval is met. -/
theorem other_iff : (old.isUnknown || old.isEmpty || old.isAnti || new.isEmpty || new.isAnti) =
    true ↔ (old.type ≠ .regular ∨ new.type = .empty ∨ new.type = .anti) := by
  simp only [Bool.or_eq_true, Range.isUnknown_iff, Range.isEmpty_iff, isAnti_iff]
  cases old.type <;> simp

theorem different_iff : (!new.isSameRange old) = true ↔ new ≠ old := by
  rw [Bool.not_eq_true', ← Bool.not_eq_true, isSameRange_iff_eq]

theorem isFullSet_of_known (h : old.type ≠ .unknown) : old.isFullSet = .ok (decide old.IsFull) := by
  by_cases he : old.type = .empty
  · rw [isFullSet_of_empty he, decide_eq_false]
    intro hfull
    rw [hfull.1] at he
    cases he
  · exact isFullSet_eq (proper_of_ne he h)

/-- The first branch, with its tests read as conditions. -/
theorem intervalWiden_other (h : old.type ≠ .regular ∨ new.type = .empty ∨ new.type = .anti) :
    intervalWiden cv old new =
      if old.type = .anti ∧ new.type = .anti ∧ new ≠ old then widenAnti cv old new
      else if old.IsFull ∧ new.type = .anti then .ok old
      else if old.type = .regular ∧ new.type = .anti then old.unionWith new
      else .ok new := by
  unfold intervalWiden
  rw [if_pos (other_iff.mpr h)]
  by_cases hu : old.type = .unknown
  · have hfull : ¬ old.IsFull := fun hfull => by
      rw [hfull.1] at hu
      cases hu
    simp [isUnknown_iff.mpr hu, hu, hfull, isAnti]
  · simp only [different_iff, if_neg (mt isUnknown_iff.mp hu), isFullSet_of_known hu,
      ok_bind, Bool.and_eq_true, decide_eq_true_eq, isAnti_iff, Range.isRegular_iff, and_assoc]

/-- The lower bound of two intervals, moved to the jump-set where it does not settle. -/
def jumpLower (cv : List APInt) (old new : Range) : APInt :=
  if new.l < old.l then getFirstLessFromVector cv new.l else old.l

def jumpUpper (cv : List APInt) (old new : Range) : APInt :=
  if new.u > old.u then getFirstGreaterFromVector cv new.u else old.u

theorem intervalWiden_regular (ho : old.type = .regular)
    (hn : new.type = .regular ∨ new.type = .unknown) :
    intervalWiden cv old new = if new.l < old.l ∨ new.u > old.u then
      ofBounds .regular old.bw (jumpLower cv old new) (jumpUpper cv old new) else .ok old := by
  have hna : new.type ≠ .anti := by
    rintro ha
    rw [ha] at hn
    simp at hn
  have hoa : old.type ≠ .anti := by
    rw [ho]
    exact RangeType.noConfusion
  have hother : ¬ (old.isUnknown || old.isEmpty || old.isAnti || new.isEmpty || new.isAnti) =
      true := by
    rw [other_iff]
    rintro (h | h | h)
    · exact h ho
    · rw [h] at hn
      simp at hn
    · exact hna h
  unfold intervalWiden
  rw [if_neg hother, getLower_eq hoa, getUpper_eq hoa, getLower_eq hna, getUpper_eq hna]
  rfl

theorem widenAnti_eq (ho : old.type = .anti) (hn : new.type = .anti) (hlo : old.InLimits)
    (hln : new.InLimits) : widenAnti cv old new =
      if new.l > old.l ∨ new.u < old.u then
        if (if new.l > old.l then getFirstGreaterFromVector cv new.l else old.l) >
            (if new.u < old.u then getFirstLessFromVector cv new.u else old.u) then
          ofType .regular old.bw
        else ofBounds .anti old.bw
          (if new.l > old.l then getFirstGreaterFromVector cv new.l else old.l)
          (if new.u < old.u then getFirstLessFromVector cv new.u else old.u)
      else .ok old := by
  unfold widenAnti
  rw [getAnti_of_anti ho hlo, getAnti_of_anti hn hln]
  rfl

end Cases

/-! ## One step -/

/-- What the constructors build: well-formed bounds, and infinite ones where a range has none. -/
def Canonical (r : Range) : Prop :=
  r.WellFormed ∧ (r.type = .unknown ∨ r.type = .empty → r.l = Range.Min ∧ r.u = Range.Max)

instance (r : Range) : Decidable (Canonical r) := inferInstanceAs (Decidable (_ ∧ _))

/-- The stored range holds the new values, and the old ones if they are known. -/
def Keeps (old new : Range) (x : Except Error Range) : Prop :=
  ∃ r, x = .ok r ∧ r.bw = old.bw ∧ new.gamma ⊆ r.gamma ∧
    (old.type ≠ .unknown → old.gamma ⊆ r.gamma)

/-- The inputs for which a value is lost. -/
def WidenLoses (cv : List APInt) (old new : Range) : Prop :=
  match old.type, new.type with
  | .unknown, _ => False
  | .empty, _ => False
  -- The new range is returned, whatever the old one holds.
  | .anti, .anti => False
  | .anti, _ => ¬ old.gamma ⊆ new.gamma
  | .regular, .empty => True
  -- The union asserts that the bounds of the hole are finite.
  | .regular, .anti => ¬ old.IsFull ∧ (new.l = Range.Min ∨ new.u = Range.Max)
  | .regular, _ => ∃ v ∈ old.gamma ∪ new.gamma,
      FromMinWraps old.bw (jumpLower cv old new).val (jumpUpper cv old new).val v

/-- The inputs that take a sink back to a range it may have held before. -/
def Reverts (old new : Range) : Prop :=
  (new.type = .unknown ∧ (old.type = .empty ∨ old.type = .anti)) ∨
    (old.type = .anti ∧ new.type ≠ .anti ∧ new.gamma = old.gamma)

/-- What rises with every change: from nothing known to no values, and from there with the
number of values; a hole is above an interval of as many values. -/
noncomputable def rank (r : Range) : Nat :=
  match r.type with
  | .unknown => 0
  | .empty => 1
  | .regular => 2 * r.gamma.ncard + 2
  | .anti => 2 * r.gamma.ncard + 3

section Rank

variable {a b : Range}

theorem finite_gamma (r : Range) : r.gamma.Finite :=
  (Set.finite_Ico _ _).subset (gamma_subset r)

theorem rank_le (r : Range) : rank r ≤ 2 * (signedRange r.bw).ncard + 3 := by
  have h := Set.ncard_le_ncard (gamma_subset r) (Set.finite_Ico _ _)
  unfold rank
  cases r.type <;> dsimp only <;> omega

/-- More values, or a hole in place of an interval. -/
theorem rank_lt (ha : a.Proper) (hb : b.Proper) (hsub : a.gamma ⊆ b.gamma)
    (h : a.gamma ≠ b.gamma ∨ (a.type = .regular ∧ b.type = .anti)) : rank a < rank b := by
  have hle := Set.ncard_le_ncard hsub (finite_gamma b)
  unfold rank
  by_cases hne : a.gamma = b.gamma
  · obtain ⟨h1, h2⟩ := h.resolve_left (not_not.mpr hne)
    rw [h1, h2]
    dsimp only
    omega
  · have hlt := Set.ncard_lt_ncard (hsub.ssubset_of_ne hne) (finite_gamma b)
    rcases ha with h1 | h1 <;> rcases hb with h2 | h2 <;> rw [h1, h2] <;> dsimp only <;> omega

theorem rank_lt_of_improper (ha : a.type = .unknown ∨ a.type = .empty)
    (h : a.type ≠ b.type) (hu : b.type ≠ .unknown) : rank a < rank b := by
  unfold rank
  rcases ha with ha | ha <;> rw [ha] at h ⊢ <;> cases hb : b.type with
  | unknown => exact absurd hb hu
  | empty => first | exact absurd hb.symm h | (dsimp only; omega)
  | regular => dsimp only; omega
  | anti => dsimp only; omega

end Rank

section Same

variable {a b : Range}

theorem eq_of_bounds (hbw : a.bw = b.bw) (ht : a.type = b.type) (hl : a.l.val = b.l.val)
    (hu : a.u.val = b.u.val) : a = b :=
  isSameRange_iff_eq.mp (isSameRange_iff.mpr ⟨hbw, ht, SignMag.ext hl, SignMag.ext hu⟩)

/-- The values of an interval that is not full determine it. -/
theorem eq_of_regular (ha : a.type = .regular) (hb : b.type = .regular) (hwa : a.WellFormed)
    (hwb : b.WellFormed) (hbw : b.bw = a.bw) (hfull : ¬ a.IsFull) (h : a.gamma = b.gamma) :
    b = a := by
  have hcap := half_le_half a.bw_valid.2
  have hlim : a.InLimits := (hwa.1 ha).resolve_left fun hinf => hfull ⟨ha, by
    rw [hinf.1, hinf.2, min_val, max_val]
    omega⟩
  obtain ⟨h1, h2, h3⟩ := hlim
  rw [gamma_of_limits ha ⟨h1, h2, h3⟩] at h
  rcases hwb.1 hb with hinf | ⟨h4, h5, h6⟩
  · rw [gamma_of_infinite hb hinf.1 hinf.2, hbw] at h
    have hleft : -half a.bw ∈ signedRange a.bw := ⟨le_rfl, by omega⟩
    have hright : half a.bw - 1 ∈ signedRange a.bw := ⟨by omega, by omega⟩
    rw [← h] at hleft hright
    exact absurd ⟨ha, hleft.1, hright.2⟩ hfull
  · rw [gamma_of_limits hb ⟨h4, h5, h6⟩] at h
    obtain ⟨h7, h8⟩ := (Set.Icc_subset_Icc_iff h2).mp h.subset
    obtain ⟨h9, h10⟩ := (Set.Icc_subset_Icc_iff h5).mp h.superset
    exact eq_of_bounds hbw (hb.trans ha.symm) (le_antisymm h7 h9) (le_antisymm h10 h8)

end Same

/-- What one step gives: a range of the constructors that holds the values of both, and that is
the old one or of a higher rank. -/
structure Widened (old new r : Range) : Prop where
  bw : r.bw = old.bw
  canonical : Canonical r
  new_subset : new.gamma ⊆ r.gamma
  old_subset : old.type ≠ .unknown → old.gamma ⊆ r.gamma
  rises : ¬ Reverts old new → r = old ∨ rank old < rank r

section Step

variable {J : JumpSet} {old new : Range}

theorem canonical_of_proper {r : Range} (hwf : r.WellFormed) (hp : r.Proper) : Canonical r := by
  refine ⟨hwf, fun h => absurd hp ?_⟩
  rintro (h' | h') <;> rw [h'] at h <;> simp at h

theorem not_antiBreaks_inside {w : Nat} (hw : w ≤ maxDigits) {p q : Int} (hlo : -half w ≤ p)
    (hhi : q < half w) : ¬ AntiBreaks w p q := by
  have hcap := half_le_half hw
  unfold AntiBreaks AntiCrossed
  intro h
  split_ifs at h <;> omega

/-- A hole within the limits is built as it is. -/
theorem wellFormed_anti_inside {w : Nat} (hw : 0 < w ∧ w ≤ maxDigits) {l u : APInt}
    (hlo : -half w ≤ l.val) (hle : l.val ≤ u.val) (hhi : u.val < half w) {r : Range}
    (h : ofBounds .anti w l u = .ok r) : r.WellFormed := by
  refine (constructor_wellFormed_iff w hw.1 hw.2 .anti l u).mpr ?_ r h
  unfold ConstructorBreaks
  dsimp only
  rw [if_pos hle]
  exact not_antiBreaks_inside hw.2 hlo hhi

/-- The full range a default constructor builds. -/
theorem ofType_regular (w : Nat) (hw : 0 < w ∧ w ≤ maxDigits) :
    ∃ r, ofType .regular w = .ok r ∧ r.bw = w ∧ r.type = .regular ∧ Canonical r ∧
      r.gamma = signedRange w := by
  unfold ofType
  rw [dif_pos hw]
  refine ⟨_, rfl, rfl, rfl, ⟨⟨fun _ => .inl ⟨rfl, rfl⟩, fun h => by cases h⟩, ?_⟩, ?_⟩
  · rintro (h | h) <;> cases h
  · exact gamma_of_infinite rfl rfl rfl

theorem hole_mem {a : Range} (ha : a.type = .anti) (h : a.InLimits) :
    ∃ v ∈ signedRange a.bw, v ∉ a.gamma := by
  obtain ⟨h1, h2, h3⟩ := h
  refine ⟨a.l.val, ⟨h1, by omega⟩, fun hmem => ?_⟩
  rw [mem_gamma_of_anti ha] at hmem
  omega

/-- Nothing was known, or nothing was there. -/
theorem widened_improper (ho : Canonical old) (hn : Canonical new) (hbw : new.bw = old.bw)
    (h : old.type = .unknown ∨ old.type = .empty) : Widened old new new where
  bw := hbw
  canonical := hn
  new_subset := subset_rfl
  old_subset := fun hu => by
    rw [gamma_of_empty (h.resolve_left hu)]
    exact Set.empty_subset _
  rises := fun hrev => by
    by_cases ht : old.type = new.type
    · obtain ⟨hl, hu⟩ := ho.2 h
      obtain ⟨hl', hu'⟩ := hn.2 (ht ▸ h)
      exact .inl (eq_of_bounds hbw ht.symm (by rw [hl, hl']) (by rw [hu, hu']))
    · refine .inr (rank_lt_of_improper h ht fun hun => ?_)
      rcases h with h | h
      · exact ht (h.trans hun.symm)
      · exact hrev (.inl ⟨hun, .inl h⟩)

/-- Another kind of range in place of a hole, if it holds at least as much. -/
theorem widened_of_anti (hn : Canonical new) (hbw : new.bw = old.bw) (ho : old.type = .anti)
    (hna : new.type ≠ .anti) (hsub : old.gamma ⊆ new.gamma) : Widened old new new where
  bw := hbw
  canonical := hn
  new_subset := subset_rfl
  old_subset := fun _ => hsub
  rises := fun hrev => by
    have hnu : new.type ≠ .unknown := fun hu => hrev (.inl ⟨hu, .inr ho⟩)
    have hdiff : old.gamma ≠ new.gamma := fun heq => hrev (.inr ⟨ho, hna, heq.symm⟩)
    have hne : new.type ≠ .empty := fun he => by
      rw [gamma_of_empty he] at hsub hdiff
      exact hdiff (Set.subset_empty_iff.mp hsub)
    exact .inr (rank_lt (.inr ho) (proper_of_ne hne hnu) hsub (.inl hdiff))

/-- Two holes: what is left of both, within the jump-set. -/
theorem widened_widenAnti (J : JumpSet) (ho : Canonical old) (hn : Canonical new)
    (hbw : new.bw = old.bw) (hto : old.type = .anti) (htn : new.type = .anti) :
    ∃ r, widenAnti J.constantvector old new = .ok r ∧ Widened old new r := by
  have hlo := ho.1.2 hto
  have hln := hn.1.2 htn
  have hw := old.bw_valid
  have hcap := half_le_half hw.2
  obtain ⟨h1, h2, h3⟩ := hlo
  obtain ⟨h4, h5, h6⟩ := hln
  rw [hbw] at h4 h6
  have hmemo : ∀ v, v ∈ old.gamma ↔ _ := fun v => mem_gamma_of_anti (x := v) hto
  have hmemn : ∀ v, v ∈ new.gamma ↔ _ := fun v => mem_gamma_of_anti (x := v) htn
  rw [hbw] at hmemn
  -- A bound moves to a constant within the new hole, or stays within it.
  obtain ⟨l, hl, hlval⟩ : ∃ l, l = (if new.l > old.l then
      getFirstGreaterFromVector J.constantvector new.l else old.l) ∧
        (new.l.val ≤ l.val ∧ old.l.val ≤ l.val ∧ (old.l.val < new.l.val → old.l.val < l.val)) := by
    refine ⟨_, rfl, ?_⟩
    have hjump := greater_bounds J new.l (by omega)
    split_ifs with hc <;> rw [gt_iff_lt, SignMag.lt_iff] at hc <;> omega
  obtain ⟨u, hu, huval⟩ : ∃ u, u = (if new.u < old.u then
      getFirstLessFromVector J.constantvector new.u else old.u) ∧
        (u.val ≤ new.u.val ∧ u.val ≤ old.u.val ∧ (new.u.val < old.u.val → u.val < old.u.val)) := by
    refine ⟨_, rfl, ?_⟩
    have hjump := less_bounds J new.u (by omega)
    split_ifs with hc <;> rw [SignMag.lt_iff] at hc <;> omega
  rw [widenAnti_eq hto htn (ho.1.2 hto) (hn.1.2 htn), ← hl, ← hu]
  by_cases hmove : new.l > old.l ∨ new.u < old.u
  · rw [if_pos hmove]
    simp only [gt_iff_lt, SignMag.lt_iff] at hmove
    by_cases hcross : l > u
    · -- The holes do not meet.
      rw [if_pos hcross]
      obtain ⟨r, hr, hrw, hrt, hcan, hg⟩ := ofType_regular old.bw hw
      have hsub : old.gamma ⊆ r.gamma := hg ▸ gamma_subset old
      refine ⟨r, hr, hrw, hcan, ?_, fun _ => hsub, fun _ => .inr ?_⟩
      · rw [hg, ← hbw]
        exact gamma_subset new
      · obtain ⟨v, hv, hnot⟩ := hole_mem hto ⟨h1, h2, h3⟩
        refine rank_lt (.inr hto) (.inl hrt) hsub (.inl fun heq => hnot ?_)
        rw [heq, hg]
        exact hv
    · rw [if_neg hcross]
      rw [gt_iff_lt, SignMag.lt_iff, not_lt] at hcross
      obtain ⟨r, hr, hrw, hg⟩ := @denotes_anti _ l u hw (by omega) hcross (by omega)
      have hwf : r.WellFormed := wellFormed_anti_inside hw (by omega) hcross (by omega) hr
      have hsub : old.gamma ⊆ r.gamma := by
        intro v hv
        rw [hmemo] at hv
        rw [hg]
        exact ⟨hv.1, by omega⟩
      -- One of the old bounds is outside of the new hole.
      obtain ⟨v, hv, hnot⟩ : ∃ v, v ∈ r.gamma ∧ v ∉ old.gamma := by
        rw [hg]
        rcases hmove with hmove | hmove
        · exact ⟨old.l.val, ⟨⟨h1, by omega⟩, .inl (by omega)⟩, by rw [hmemo]; omega⟩
        · exact ⟨old.u.val, ⟨⟨by omega, h3⟩, .inr (by omega)⟩, by rw [hmemo]; omega⟩
      have hp : r.Proper := proper_of_mem (ofBounds_type_ne_unknown (by decide) hr) hv
      refine ⟨r, hr, hrw, canonical_of_proper hwf hp, ?_, fun _ => hsub, fun _ => .inr ?_⟩
      · intro v hv
        rw [hmemn] at hv
        rw [hg]
        exact ⟨hv.1, by omega⟩
      · exact rank_lt (.inr hto) hp hsub (.inl fun heq => hnot (heq ▸ hv))
  · rw [if_neg hmove]
    simp only [gt_iff_lt, SignMag.lt_iff, not_or, not_lt] at hmove
    refine ⟨old, rfl, rfl, ho, fun v hv => ?_, fun _ => subset_rfl, fun _ => .inl rfl⟩
    rw [hmemn] at hv
    rw [hmemo]
    exact ⟨hv.1, by omega⟩

/-- A range in place of an interval that is not full, with its values and perhaps more. -/
theorem rises_of_regular {r : Range} (hto : old.type = .regular) (hfull : ¬ old.IsFull)
    (hwo : old.WellFormed) (hwf : r.WellFormed) (hp : r.Proper) (hbw : r.bw = old.bw)
    (hsub : old.gamma ⊆ r.gamma) : r = old ∨ rank old < rank r := by
  by_cases hg : old.gamma = r.gamma
  · rcases hp with hr | hr
    · exact .inl (eq_of_regular hto hr hwo hwf hbw hfull hg)
    · exact .inr (rank_lt (.inl hto) (.inr hr) hsub (.inr ⟨hto, hr⟩))
  · exact .inr (rank_lt (.inl hto) hp hsub (.inl hg))

theorem regular_nonempty {a : Range} (ha : a.type = .regular) (hwf : a.WellFormed) :
    a.gamma.Nonempty := by
  have hP := half_pos a.bw
  rcases hwf.1 ha with ⟨hl, hu⟩ | hlim
  · rw [gamma_of_infinite ha hl hu]
    exact ⟨0, by omega, hP⟩
  · rw [gamma_of_limits ha hlim]
    exact ⟨a.l.val, le_rfl, hlim.2.1⟩

/-- What the mixed union returns is well-formed. -/
theorem unionAntiRegular_wellFormed {a b r : Range} (ha : a.type = .anti)
    (hb : b.type = .regular) (hwa : a.WellFormed) (hwb : b.WellFormed) (hwidth : b.bw = a.bw)
    (h : unionAntiRegular a.bw a b = .ok r) : r.WellFormed ∧ r.type ≠ .unknown := by
  obtain ⟨h1, h2, h3⟩ := hwa.2 ha
  have hnb : b.type ≠ .anti := by
    rw [hb]
    exact RangeType.noConfusion
  have hcap := half_le_half a.bw_valid.2
  have hbounds := hwb.regular_bounds hb
  have hhalf : half b.bw = half a.bw := congrArg half hwidth
  rw [hhalf] at hbounds
  have hfull : ∀ {r}, ofType .regular a.bw = .ok r → r.WellFormed ∧ r.type ≠ .unknown := by
    intro r hr
    obtain ⟨r', hr', -, ht, hcan, -⟩ := ofType_regular a.bw a.bw_valid
    obtain rfl : r' = r := Except.ok.inj (hr'.symm.trans hr)
    exact ⟨hcan.1, by rw [ht]; exact RangeType.noConfusion⟩
  unfold unionAntiRegular at h
  rw [getAnti_of_anti ha (hwa.2 ha), ok_bind, getLower_eq (by simp), getUpper_eq (by simp),
    getLower_eq hnb, getUpper_eq hnb] at h
  obtain ⟨hmin, h⟩ := throwAssert_bind_ok h
  obtain ⟨hmax, h⟩ := throwAssert_bind_ok h
  rw [ne_eq, eq_min_iff] at hmin
  rw [ne_eq, eq_max_iff] at hmax
  simp only [ok_bind, ge_iff_le, gt_iff_lt, SignMag.le_iff, SignMag.lt_iff] at h
  split_ifs at h with hdisj hcover hleft hright
  · injection h with h
    rw [← h]
    exact ⟨hwa, by rw [ha]; exact RangeType.noConfusion⟩
  · exact hfull h
  · have hsucc : (b.u + 1).val = b.u.val + 1 := add_minDelta_val (by omega)
    exact ⟨wellFormed_anti_inside a.bw_valid (by omega) (by omega) h3 h,
      ofBounds_type_ne_unknown (by decide) h⟩
  · have hpred : (b.l - 1).val = b.l.val - 1 := sub_minDelta_val (by omega)
    exact ⟨wellFormed_anti_inside a.bw_valid h1 (by omega) (by omega) h,
      ofBounds_type_ne_unknown (by decide) h⟩
  · exact hfull h

/-- An interval and a hole: their union, if the interval is not full already. -/
theorem widened_union (ho : Canonical old) (hn : Canonical new) (hbw : new.bw = old.bw)
    (hto : old.type = .regular) (htn : new.type = .anti) (hfull : ¬ old.IsFull)
    (hmin : new.l ≠ Range.Min) (hmax : new.u ≠ Range.Max) :
    ∃ r, old.unionWith new = .ok r ∧ Widened old new r := by
  obtain ⟨s, ⟨r, hr, hrw, rfl⟩, hsubn, hsubo⟩ :=
    unionAntiRegular_sound (w := new.bw) htn hto hn.1 ho.1 hbw.symm rfl hmin hmax
  obtain ⟨hwf, hknown⟩ := unionAntiRegular_wellFormed htn hto hn.1 ho.1 hbw.symm hr
  obtain ⟨v, hv⟩ := regular_nonempty hto ho.1
  have hp : r.Proper := proper_of_mem hknown (hsubo hv)
  rw [hbw, ← unionWith_of_regular_anti hto htn] at hr
  exact ⟨r, hr, hrw.trans hbw, canonical_of_proper hwf hp, hsubn, fun _ => hsubo,
    fun _ => rises_of_regular hto hfull ho.1 hwf hp (hrw.trans hbw) hsubo⟩

section Jump

variable (J : JumpSet)

theorem jumpLower_le (hlo : -half maxDigits ≤ new.l.val) :
    (jumpLower J.constantvector old new).val ≤ old.l.val ∧
      (jumpLower J.constantvector old new).val ≤ new.l.val ∧
      (-half maxDigits ≤ old.l.val → -half maxDigits ≤ (jumpLower J.constantvector old new).val) ∧
      (¬ new.l < old.l → jumpLower J.constantvector old new = old.l) := by
  have hjump := less_bounds J new.l hlo
  unfold jumpLower
  split_ifs with h <;> rw [SignMag.lt_iff] at h
  · refine ⟨by omega, by omega, fun _ => by omega, fun hn => absurd h ?_⟩
    rwa [SignMag.lt_iff] at hn
  · exact ⟨le_rfl, by omega, id, fun _ => rfl⟩

theorem le_jumpUpper (hhi : new.u.val ≤ half maxDigits - 1) :
    old.u.val ≤ (jumpUpper J.constantvector old new).val ∧
      new.u.val ≤ (jumpUpper J.constantvector old new).val ∧
      (old.u.val ≤ half maxDigits - 1 →
        (jumpUpper J.constantvector old new).val ≤ half maxDigits - 1) ∧
      (¬ new.u > old.u → jumpUpper J.constantvector old new = old.u) := by
  have hjump := greater_bounds J new.u hhi
  unfold jumpUpper
  split_ifs with h <;> rw [gt_iff_lt, SignMag.lt_iff] at h
  · refine ⟨by omega, by omega, fun _ => by omega, fun hn => absurd h ?_⟩
    rwa [gt_iff_lt, SignMag.lt_iff] at hn
  · exact ⟨le_rfl, by omega, id, fun _ => rfl⟩

/-- The bounds of an interval, or of nothing known. -/
theorem bounds_of_canonical {r : Range} (h : Canonical r)
    (ht : r.type = .regular ∨ r.type = .unknown) :
    (r.l.val = -half maxDigits ∧ r.u.val = half maxDigits - 1) ∨
      (-half r.bw ≤ r.l.val ∧ r.l.val ≤ r.u.val ∧ r.u.val < half r.bw) := by
  rcases ht with ht | ht
  · exact h.1.regular_bounds ht
  · obtain ⟨hl, hu⟩ := h.2 (.inl ht)
    exact .inl ⟨eq_min_iff.mp hl, eq_max_iff.mp hu⟩

theorem between_of_mem {r : Range} (h : Canonical r)
    (ht : r.type = .regular ∨ r.type = .unknown) {v : Int} (hv : v ∈ r.gamma) :
    v ∈ signedRange r.bw ∧ r.l.val ≤ v ∧ v ≤ r.u.val := by
  refine ⟨hv.1, ?_⟩
  rcases ht with ht | ht
  · exact (mem_gamma_of_regular ht |>.mp hv).2
  · have hcap := half_le_half r.bw_valid.2
    obtain ⟨hl, hu⟩ := h.2 (.inl ht)
    have h1 := hv.1
    rw [hl, hu, min_val, max_val]
    omega

/-- Nothing new lies outside of a full interval. -/
theorem jump_full (ho : Canonical old) (hn : Canonical new) (hbw : new.bw = old.bw)
    (hfull : old.IsFull) (htn : new.type = .regular ∨ new.type = .unknown) :
    intervalWiden J.constantvector old new = .ok old := by
  have hbo := bounds_of_canonical ho (.inl hfull.1)
  have hbn := bounds_of_canonical hn htn
  obtain ⟨hto, hfl, hfu⟩ := hfull
  rw [hbw] at hbn
  have hw := old.bw_valid
  have hcap := half_le_half hw.2
  rw [intervalWiden_regular hto htn]
  by_cases hmove : new.l < old.l ∨ new.u > old.u
  · rw [if_pos hmove]
    simp only [gt_iff_lt, SignMag.lt_iff] at hmove
    -- Only the infinite bounds lie outside, and they become the limits again.
    have hlim : old.l.val = -half old.bw ∧ old.u.val = half old.bw - 1 := by omega
    have hinf : new.l.val = -half maxDigits ∧ new.u.val = half maxDigits - 1 := by omega
    have hl : jumpLower J.constantvector old new = Range.Min := by
      rw [eq_min_iff]
      have hjump := less_bounds J new.l (by omega)
      unfold jumpLower
      split_ifs with h <;> rw [SignMag.lt_iff] at h <;> omega
    have hu : jumpUpper J.constantvector old new = Range.Max := by
      rw [eq_max_iff]
      have hjump := greater_bounds J new.u (by omega)
      unfold jumpUpper
      split_ifs with h <;> rw [gt_iff_lt, SignMag.lt_iff] at h <;> omega
    rw [hl, hu]
    obtain ⟨r, hr, hrw, hrt, hrl, hru⟩ := yields_infinite hw
    rw [hr]
    exact congrArg Except.ok (eq_of_bounds hrw (hrt.trans hto.symm) (hrl.trans hlim.1.symm)
      (hru.trans hlim.2.symm))
  · rw [if_neg hmove]

/-- Two intervals. -/
theorem widened_jump (ho : Canonical old) (hn : Canonical new)
    (hbw : new.bw = old.bw) (hto : old.type = .regular)
    (htn : new.type = .regular ∨ new.type = .unknown) : ∃ r,
      intervalWiden J.constantvector old new = .ok r ∧ r.bw = old.bw ∧
        (∀ v ∈ old.gamma ∪ new.gamma, v ∈ r.gamma ↔ ¬ FromMinWraps old.bw
          (jumpLower J.constantvector old new).val (jumpUpper J.constantvector old new).val v) ∧
        (old.gamma ∪ new.gamma ⊆ r.gamma → Widened old new r) := by
  have hw := old.bw_valid
  have hP := half_pos old.bw
  have hcap := half_le_half hw.2
  have hbo := bounds_of_canonical ho (.inl hto)
  have hbn := bounds_of_canonical hn htn
  rw [hbw] at hbn
  obtain ⟨hl1, hl2, hl3, hl4⟩ := @jumpLower_le old new J (by omega)
  obtain ⟨hu1, hu2, hu3, hu4⟩ := @le_jumpUpper old new J (by omega)
  have hbetween : ∀ v ∈ old.gamma ∪ new.gamma, v ∈ signedRange old.bw ∧
      (jumpLower J.constantvector old new).val ≤ v ∧
        v ≤ (jumpUpper J.constantvector old new).val := by
    rintro v (hv | hv)
    · obtain ⟨h1, h2⟩ := between_of_mem ho (.inl hto) hv
      exact ⟨h1, by omega⟩
    · obtain ⟨h1, h2⟩ := between_of_mem hn htn hv
      rw [hbw] at h1
      exact ⟨h1, by omega⟩
  by_cases hmove : new.l < old.l ∨ new.u > old.u
  · obtain ⟨r, hr, hrw, hwf, hmem⟩ := ofBounds_regular_hull hw (hl3 (by omega)) (by omega)
      (by omega) (by omega) (hu3 (by omega))
    refine ⟨r, ?_, hrw, fun v hv => ?_, fun hsub => ?_⟩
    · rw [intervalWiden_regular hto htn, if_pos hmove]
      exact hr
    · obtain ⟨h1, h2, h3⟩ := hbetween v hv
      exact hmem v h1 h2 h3
    · obtain ⟨v, hv⟩ := regular_nonempty hto ho.1
      have hsubo := Set.union_subset_iff.mp hsub
      have hp : r.Proper := proper_of_mem (ofBounds_type_ne_unknown (by decide) hr) (hsubo.1 hv)
      refine ⟨hrw, canonical_of_proper hwf hp, hsubo.2, fun _ => hsubo.1, fun _ => ?_⟩
      by_cases hfull : old.IsFull
      · have hsame := jump_full J ho hn hbw hfull htn
        rw [intervalWiden_regular hto htn, if_pos hmove, hr] at hsame
        exact .inl (Except.ok.inj hsame)
      · exact rises_of_regular hto hfull ho.1 hwf hp hrw hsubo.1
  · -- Both bounds settle.
    have hstay : intervalWiden J.constantvector old new = .ok old := by
      rw [intervalWiden_regular hto htn, if_neg hmove]
    rw [not_or] at hmove
    have hsub : new.gamma ⊆ old.gamma := by
      intro v hv
      obtain ⟨h1, h2, h3⟩ := hbetween v (.inr hv)
      rw [hl4 hmove.1] at h2
      rw [hu4 hmove.2] at h3
      exact (mem_gamma_of_regular hto).mpr ⟨h1, h2, h3⟩
    refine ⟨old, hstay, rfl, fun v hv => iff_of_true (hv.elim id fun h => hsub h) ?_, fun _ =>
      ⟨rfl, ho, hsub, fun _ => subset_rfl, fun _ => .inl rfl⟩⟩
    rw [hl4 hmove.1, hu4 hmove.2]
    rintro ⟨h1, h2, h3, -⟩
    rcases Nat.lt_or_eq_of_le hw.2 with hlt | heq
    · have hroom := two_mul_half_le hw.1 hlt
      omega
    · rw [heq] at hbo h2
      omega

end Jump

/-- A step that loses nothing. -/
theorem widened_of_not_loses (J : JumpSet) (ho : Canonical old) (hn : Canonical new)
    (hbw : new.bw = old.bw) (h : ¬ WidenLoses J.constantvector old new) :
    ∃ r, intervalWiden J.constantvector old new = .ok r ∧ Widened old new r := by
  have hreg : ∀ {t : RangeType}, t = .regular → t ≠ .anti := by
    rintro t rfl
    exact RangeType.noConfusion
  -- The new range, where it is handed on as it is.
  have hhand : old.type ≠ .regular → (old.type = .anti → new.type = .anti → new = old) →
      intervalWiden J.constantvector old new = .ok new := by
    intro hr hs
    rw [intervalWiden_other (.inl hr), if_neg (fun hc => hc.2.2 (hs hc.1 hc.2.1)),
      if_neg (fun hc => hr hc.1.1), if_neg (fun hc => hr hc.1)]
  cases hto : old.type with
  | unknown =>
    exact ⟨new, hhand (by rw [hto]; decide) (by rw [hto]; intro hc; cases hc),
      widened_improper ho hn hbw (.inl hto)⟩
  | empty =>
    exact ⟨new, hhand (by rw [hto]; decide) (by rw [hto]; intro hc; cases hc),
      widened_improper ho hn hbw (.inr hto)⟩
  | anti =>
    have hnr : old.type ≠ .regular := by
      rw [hto]
      exact RangeType.noConfusion
    by_cases htn : new.type = .anti
    · by_cases hsame : new = old
      · subst hsame
        exact ⟨new, hhand hnr fun _ _ => rfl, rfl, hn, subset_rfl, fun _ => subset_rfl,
          fun _ => .inl rfl⟩
      · rw [intervalWiden_other (.inl hnr), if_pos ⟨hto, htn, hsame⟩]
        exact widened_widenAnti J ho hn hbw hto htn
    · have hsub : old.gamma ⊆ new.gamma := by
        by_contra hlost
        refine h ?_
        unfold WidenLoses
        rw [hto]
        cases hc : new.type <;> first | exact hlost | exact absurd hc htn
      exact ⟨new, hhand hnr fun _ hc => absurd hc htn, widened_of_anti hn hbw hto htn hsub⟩
  | regular =>
    cases htn : new.type with
    | empty => exact absurd (by simp [WidenLoses, hto, htn]) h
    | anti =>
      rw [intervalWiden_other (.inr (.inr htn)), if_neg (fun hc => hreg hto hc.1)]
      by_cases hfull : old.IsFull
      · rw [if_pos ⟨hfull, htn⟩]
        refine ⟨old, rfl, rfl, ho, fun v hv => ?_, fun _ => subset_rfl, fun _ => .inl rfl⟩
        have hv1 := hv.1
        rw [hbw] at hv1
        obtain ⟨-, hl, hu⟩ := hfull
        exact (mem_gamma_of_regular hto).mpr ⟨hv1, by omega⟩
      · rw [if_neg (fun hc => hfull hc.1), if_pos ⟨hto, htn⟩]
        simp only [WidenLoses, hto, htn, not_and, not_or] at h
        exact widened_union ho hn hbw hto htn hfull (h hfull).1 (h hfull).2
    | regular =>
      obtain ⟨r, hr, -, hmem, hwiden⟩ := widened_jump J ho hn hbw hto (.inl htn)
      simp only [WidenLoses, hto, htn, not_exists, not_and] at h
      exact ⟨r, hr, hwiden fun v hv => (hmem v hv).mpr (h v hv)⟩
    | unknown =>
      obtain ⟨r, hr, -, hmem, hwiden⟩ := widened_jump J ho hn hbw hto (.inr htn)
      simp only [WidenLoses, hto, htn, not_exists, not_and] at h
      exact ⟨r, hr, hwiden fun v hv => (hmem v hv).mpr (h v hv)⟩

/-- A step that loses a value. -/
theorem not_keeps_of_loses (J : JumpSet) (ho : Canonical old) (hn : Canonical new)
    (hbw : new.bw = old.bw) (h : WidenLoses J.constantvector old new) :
    ¬ Keeps old new (intervalWiden J.constantvector old new) := by
  rintro ⟨r, hr, -, hsubn, hsubo⟩
  unfold WidenLoses at h
  cases hto : old.type with
  | unknown => simp [hto] at h
  | empty => simp [hto] at h
  | anti =>
    have hnr : old.type ≠ .regular := by
      rw [hto]
      exact RangeType.noConfusion
    have htn : new.type ≠ .anti := fun hc => by simp [hto, hc] at h
    have hlost : ¬ old.gamma ⊆ new.gamma := by
      rw [hto] at h
      cases hc : new.type <;> rw [hc] at h <;> first | exact h | exact absurd hc htn
    rw [intervalWiden_other (.inl hnr), if_neg (fun hc => htn hc.2.1),
      if_neg (fun hc => hnr hc.1.1), if_neg (fun hc => hnr hc.1)] at hr
    injection hr with hr
    rw [← hr] at hsubo
    exact hlost (hsubo (by rw [hto]; exact RangeType.noConfusion))
  | regular =>
    have hknown : old.type ≠ .unknown := by
      rw [hto]
      exact RangeType.noConfusion
    have hjump : ∀ (ht : new.type = .regular ∨ new.type = .unknown),
        ¬ ∃ v ∈ old.gamma ∪ new.gamma, FromMinWraps old.bw
          (jumpLower J.constantvector old new).val (jumpUpper J.constantvector old new).val v := by
      rintro ht ⟨v, hv, hwraps⟩
      obtain ⟨r', hr', -, hmem, -⟩ := widened_jump J ho hn hbw hto ht
      obtain rfl : r' = r := Except.ok.inj (hr'.symm.trans hr)
      exact (hmem v hv).mp (Set.union_subset (hsubo hknown) hsubn hv) hwraps
    have hother : ∀ (ht : new.type = .empty ∨ new.type = .anti), ¬ old.IsFull ∨ new.type = .empty →
        (if old.type = .regular ∧ new.type = .anti then old.unionWith new else .ok new) =
          Except.ok r := by
      intro ht hf
      rw [intervalWiden_other (.inr ht), if_neg (fun hc => by rw [hto] at hc; cases hc.1),
        if_neg (fun hc => hf.elim (fun h => h hc.1) fun h => by rw [h] at hc; cases hc.2)] at hr
      exact hr
    cases htn : new.type with
    | empty =>
      have hr' := hother (.inl htn) (.inr htn)
      rw [if_neg (fun hc => by rw [htn] at hc; cases hc.2)] at hr'
      injection hr' with hr'
      obtain ⟨v, hv⟩ := regular_nonempty hto ho.1
      have hv' := hsubo hknown hv
      rw [← hr', gamma_of_empty htn] at hv'
      exact hv'
    | anti =>
      simp only [hto, htn] at h
      have hr' := hother (.inr htn) (.inl h.1)
      rw [if_pos ⟨hto, htn⟩, unionWith_of_regular_anti hto htn] at hr'
      exact unionAntiRegular_error htn (hn.1.2 htn) h.2 r hr'
    | regular =>
      simp only [hto, htn] at h
      exact hjump (.inl htn) h
    | unknown =>
      simp only [hto, htn] at h
      exact hjump (.inr htn) h

end Step

/-! ## Runs -/

/-- A step that neither loses a value nor goes back. -/
def Advances (cv : List APInt) (old new : Range) : Prop :=
  ¬ WidenLoses cv old new ∧ ¬ Reverts old new

/-- Ranges of the constructors, of the widths of the variables. -/
def Typed {ι : Type} (width : ι → Nat) (s : ι → Range) : Prop :=
  ∀ i, Canonical (s i) ∧ (s i).bw = width i

/-- A strongly connected component: the operations that use a variable, and evaluations that
give ranges of the width of the sink. -/
structure Component (ι : Type) where
  width : ι → Nat
  compUseMap : ι → List (OpNode ι)
  sinks : Finset ι
  sink_mem : ∀ i, ∀ op ∈ compUseMap i, op.sink ∈ sinks
  eval_typed : ∀ i, ∀ op ∈ compUseMap i, ∀ s, Typed width s →
    Canonical (op.eval s) ∧ (op.eval s).bw = width op.sink

section Runs

variable (J : JumpSet)

/-- One sink, for any sequence of ranges it is evaluated to. -/
theorem stored_settles {s new : Nat → Range} (hs : Canonical (s 0))
    (hnew : ∀ n, Canonical (new n) ∧ (new n).bw = (s 0).bw)
    (hstore : ∀ n, intervalWiden J.constantvector (s n) (new n) = .ok (s (n + 1)))
    (hadv : ∀ n, Advances J.constantvector (s n) (new n)) : ∃ N, ∀ n, N ≤ n → s n = s N := by
  have hstep : ∀ n, Canonical (s n) → (s n).bw = (s 0).bw → Widened (s n) (new n) (s (n + 1)) := by
    intro n hcan hbw
    obtain ⟨r, hr, hwiden⟩ := widened_of_not_loses J hcan (hnew n).1
      ((hnew n).2.trans hbw.symm) (hadv n).1
    obtain rfl : r = s (n + 1) := Except.ok.inj (hr.symm.trans (hstore n))
    exact hwiden
  have htyped : ∀ n, Canonical (s n) ∧ (s n).bw = (s 0).bw := by
    intro n
    induction n with
    | zero => exact ⟨hs, rfl⟩
    | succ n ih =>
      have hwiden := hstep n ih.1 ih.2
      exact ⟨hwiden.canonical, hwiden.bw.trans ih.2⟩
  refine @exists_forall_ge_eq _ rank (2 * (signedRange (s 0).bw).ncard + 3) _
    (fun n => (hstep n (htyped n).1 (htyped n).2).rises (hadv n).2) fun n => ?_
  have hle := rank_le (s n)
  rwa [(htyped n).2] at hle

variable {ι : Type} [LinearOrder ι] (G : Component ι)

/-- The operations that are run raise the ranks of their sinks. -/
theorem preUpdate_rises : (preUpdate J.constantvector G.compUseMap).Rises rank
    (fun i => 2 * (signedRange (G.width i)).ncard + 3) (Typed G.width)
    (fun op s => Advances J.constantvector (s op.sink) (op.eval s)) := by
  constructor
  rintro op s ⟨i, hop⟩ hs hadv
  obtain ⟨hcan, hbw⟩ := hs op.sink
  obtain ⟨hnew, hnewbw⟩ := G.eval_typed i op hop s hs
  obtain ⟨r, hr, hwiden⟩ := widened_of_not_loses J hcan hnew (hnewbw.trans hbw.symm) hadv.1
  have hrises := hwiden.rises hadv.2
  have hrw : r.bw = G.width op.sink := hwiden.bw.trans hbw
  refine ⟨r, !(s op.sink).isSameRange r, ?_, fun j => ?_, ?_, hrw ▸ rank_le r, fun hmod => ?_⟩
  · show widen J.constantvector op s = _
    unfold widen
    rw [hr]
    rfl
  · show Canonical (Function.update s op.sink r j) ∧ (Function.update s op.sink r j).bw = G.width j
    rcases eq_or_ne j op.sink with rfl | hne
    · rw [Function.update_self]
      exact ⟨hwiden.canonical, hrw⟩
    · rw [Function.update_of_ne hne]
      exact hs j
  · exact hrises.elim (fun h => by rw [h]; exact le_rfl) Nat.le_of_lt
  · rw [different_iff] at hmod
    exact hrises.resolve_left fun h => hmod h.symm

/-- The work list of a component ends. -/
theorem preUpdate_done {s : ι → Range} (hs : Typed G.width s) (actv : Finset ι)
    (hadv : ∀ n c, (preUpdate J.constantvector G.compUseMap).run n ⟨s, [], actv⟩ = .ok c →
      ∀ op ops, c.pending = op :: ops →
        Advances J.constantvector (c.store op.sink) (op.eval c.store)) :
    ∃ n c, (preUpdate J.constantvector G.compUseMap).run n ⟨s, [], actv⟩ = .ok c ∧ c.Done :=
  Worklist.run_done (preUpdate_rises J G)
    (fun op ⟨i, h⟩ => (G.sink_mem i op h : _ ∈ G.sinks)) ⟨s, [], actv⟩ hs (fun _ h => absurd h List.not_mem_nil)
    hadv

end Runs

/-! ## The widening -/

/-- One step keeps the values of both ranges exactly where `WidenLoses` does not hold; and
where no step loses a value or goes back, a sink settles and the work list of every component
ends, whatever its operations evaluate to. -/
theorem widen_widening_iff (J : JumpSet) :
    (∀ old new, Canonical old → Canonical new → new.bw = old.bw →
      (Keeps old new (intervalWiden J.constantvector old new) ↔
        ¬ WidenLoses J.constantvector old new)) ∧
    (∀ s new : Nat → Range, Canonical (s 0) →
      (∀ n, Canonical (new n) ∧ (new n).bw = (s 0).bw) →
      (∀ n, intervalWiden J.constantvector (s n) (new n) = .ok (s (n + 1))) →
      (∀ n, Advances J.constantvector (s n) (new n)) → ∃ N, ∀ n, N ≤ n → s n = s N) ∧
    (∀ (ι : Type) [LinearOrder ι] (G : Component ι) (s : ι → Range) (actv : Finset ι),
      Typed G.width s →
      (∀ n c, (preUpdate J.constantvector G.compUseMap).run n ⟨s, [], actv⟩ = .ok c →
        ∀ op ops, c.pending = op :: ops →
          Advances J.constantvector (c.store op.sink) (op.eval c.store)) →
      ∃ n c, (preUpdate J.constantvector G.compUseMap).run n ⟨s, [], actv⟩ = .ok c ∧ c.Done) := by
  refine ⟨fun old new ho hn hbw => ⟨fun hkeeps hloses => ?_, fun h => ?_⟩, fun s new hs hnew hstore
    hadv => stored_settles J hs hnew hstore hadv, fun ι _ G s actv hs hadv =>
      preUpdate_done J G hs actv hadv⟩
  · exact not_keeps_of_loses J ho hn hbw hloses hkeeps
  · obtain ⟨r, hr, hwiden⟩ := widened_of_not_loses J ho hn hbw h
    exact ⟨r, hr, hwiden.bw, hwiden.new_subset, hwiden.old_subset⟩

/-- A jump-set of the constants -5, 10 and 100. -/
def jumpSet : JumpSet := ⟨[-5, 10, 100], by decide +kernel, by decide +kernel⟩

theorem widen_widening_at_eight :
    Keeps ⟨-1, 5, 8, .regular, by decide⟩ ⟨0, 20, 8, .regular, by decide⟩
      (intervalWiden jumpSet.constantvector ⟨-1, 5, 8, .regular, by decide⟩
        ⟨0, 20, 8, .regular, by decide⟩) ↔
      ¬ WidenLoses jumpSet.constantvector ⟨-1, 5, 8, .regular, by decide⟩
        ⟨0, 20, 8, .regular, by decide⟩ :=
  (widen_widening_iff jumpSet).1 _ _ (by decide +kernel) (by decide +kernel) rfl

/-- An interval, a hole and no values, of eight bits. -/
def interval : Range := ⟨0, 5, 8, .regular, Range.bwValid_eight⟩
def hole : Range := ⟨2, 3, 8, .anti, Range.bwValid_eight⟩
def nothing : Range := ⟨Range.Min, Range.Max, 8, .empty, Range.bwValid_eight⟩

/-- An interval evaluated in place of a hole is handed on, and what lies outside of it is lost;
a sink evaluated to a hole and to nothing in turn never settles. -/
theorem widen_not_widening :
    (¬ ∀ (J : JumpSet) (old new : Range), Canonical old → Canonical new → new.bw = old.bw →
      Keeps old new (intervalWiden J.constantvector old new)) ∧
    ¬ ∀ (J : JumpSet) (s new : Nat → Range), Canonical (s 0) →
      (∀ n, Canonical (new n) ∧ (new n).bw = (s 0).bw) →
      (∀ n, intervalWiden J.constantvector (s n) (new n) = .ok (s (n + 1))) →
      ∃ N, ∀ n, N ≤ n → s n = s N := by
  constructor
  · intro h
    obtain ⟨r, hr, -, -, hold⟩ := h jumpSet hole interval (by decide +kernel) (by decide +kernel)
      rfl
    have hlost : intervalWiden jumpSet.constantvector hole interval = .ok interval := by
      decide +kernel
    obtain rfl : r = interval := Except.ok.inj (hr.symm.trans hlost)
    have hmem : (6 : Int) ∈ hole.gamma := by decide +kernel
    have hnot : (6 : Int) ∉ interval.gamma := by decide +kernel
    exact hnot (hold RangeType.noConfusion hmem)
  · intro h
    have hcan : Canonical hole ∧ Canonical nothing := by decide +kernel
    have hgone : intervalWiden jumpSet.constantvector hole nothing = .ok nothing := by
      decide +kernel
    have hback : intervalWiden jumpSet.constantvector nothing hole = .ok hole := by
      decide +kernel
    have htyped : ∀ n, Canonical (if n % 2 = 0 then nothing else hole) ∧
        (if n % 2 = 0 then nothing else hole).bw = 8 := by
      intro n
      by_cases hpar : n % 2 = 0
      · rw [if_pos hpar]
        exact ⟨hcan.2, rfl⟩
      · rw [if_neg hpar]
        exact ⟨hcan.1, rfl⟩
    have hstore : ∀ n, intervalWiden jumpSet.constantvector (if n % 2 = 0 then hole else nothing)
        (if n % 2 = 0 then nothing else hole) = .ok (if (n + 1) % 2 = 0 then hole else nothing) := by
      intro n
      by_cases hpar : n % 2 = 0
      · rw [if_pos hpar, if_pos hpar, if_neg (by omega)]
        exact hgone
      · rw [if_neg hpar, if_neg hpar, if_pos (by omega)]
        exact hback
    obtain ⟨N, hN⟩ := h jumpSet (fun n => if n % 2 = 0 then hole else nothing)
      (fun n => if n % 2 = 0 then nothing else hole) hcan.1 htyped hstore
    have hdiff : hole ≠ nothing := by
      intro heq
      have ht := congrArg type heq
      cases ht
    have hnext := hN (N + 1) (Nat.le_succ N)
    rcases Nat.mod_two_eq_zero_or_one N with hpar | hpar
    · rw [if_pos hpar, if_neg (show ¬ (N + 1) % 2 = 0 by omega)] at hnext
      exact hdiff hnext.symm
    · rw [if_neg (show ¬ N % 2 = 0 by omega), if_pos (show (N + 1) % 2 = 0 by omega)] at hnext
      exact hdiff hnext

end Meet

end Bambu
