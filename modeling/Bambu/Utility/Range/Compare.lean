/-
  Bambu.Utility.Range.Compare

  `Range.cpp`: the comparison predicates and the extrema.

  A comparison by order reads four extrema, of one signedness, and answers a
  one-valued range where the order of two of them decides it; the eight members
  differ in the accessors and in the two tests.  `Eq` and `Ne` go through
  `intersectWith`.  `SMin` and its siblings first ask a comparison whether one
  operand can be returned as it is.

  A constant answer is right because the extrema enclose the operands.  Unsigned
  extrema do so at every width but the capacity, where they are the signed
  bounds; one bit below it an unsigned bound can be the infinite `Max`.
-/

import Bambu.Utility.Range.Div

namespace Bambu
namespace Range

open Bambu.Math APInt

/-! ## The operations -/

/-- `isSameRange(other)`. -/
def isSameRange (this other : Range) : Bool :=
  this.bw == other.bw && decide (this.type = other.type) && decide (this.l = other.l) &&
    decide (this.u = other.u)

/-- The common body of the comparisons by order: `a`, `b` are the extrema of
    `this` and `c`, `d` those of `other`. -/
def relation (this other : Range) (_bw : Nat) (getMin getMax : Range → Except Error APInt)
    (always never : APInt → APInt → APInt → APInt → Bool) : Except Error Range :=
  onProper this other _bw <|
    if this.isAnti || other.isAnti then ofBounds .regular _bw 0 1
    else do
      let a ← getMin this
      let b ← getMax this
      let c ← getMin other
      let d ← getMax other
      if always a b c d then ofBounds .regular _bw 1 1
      else if never a b c d then ofBounds .regular _bw 0 0
      else ofBounds .regular _bw 0 1

def Ugt (this other : Range) (_bw : Nat) : Except Error Range :=
  relation this other _bw getUnsignedMin getUnsignedMax
    (fun a _ _ d => a > d) (fun _ b c _ => c ≥ b)

def Uge (this other : Range) (_bw : Nat) : Except Error Range :=
  relation this other _bw getUnsignedMin getUnsignedMax
    (fun a _ _ d => a ≥ d) (fun _ b c _ => c > b)

def Ult (this other : Range) (_bw : Nat) : Except Error Range :=
  relation this other _bw getUnsignedMin getUnsignedMax
    (fun _ b c _ => b < c) (fun a _ _ d => d ≤ a)

def Ule (this other : Range) (_bw : Nat) : Except Error Range :=
  relation this other _bw getUnsignedMin getUnsignedMax
    (fun _ b c _ => b ≤ c) (fun a _ _ d => d < a)

def Sgt (this other : Range) (_bw : Nat) : Except Error Range :=
  relation this other _bw getSignedMin getSignedMax
    (fun a _ _ d => a > d) (fun _ b c _ => c ≥ b)

def Sge (this other : Range) (_bw : Nat) : Except Error Range :=
  relation this other _bw getSignedMin getSignedMax
    (fun a _ _ d => a ≥ d) (fun _ b c _ => c > b)

def Slt (this other : Range) (_bw : Nat) : Except Error Range :=
  relation this other _bw getSignedMin getSignedMax
    (fun _ b c _ => b < c) (fun a _ _ d => d ≤ a)

def Sle (this other : Range) (_bw : Nat) : Except Error Range :=
  relation this other _bw getSignedMin getSignedMax
    (fun _ b c _ => b ≤ c) (fun a _ _ d => d < a)

/-- The common body of `Eq` and `Ne`; they differ in the bit for equal operands
    and the bit for different ones. -/
def equality (this other : Range) (_bw : Nat) (equal different : APInt) : Except Error Range :=
  onProper this other _bw <|
    if this.isAnti && other.isAnti then ofBounds .regular _bw 0 1
    else if (!this.isAnti && !other.isAnti) &&
        (this.l = Min || this.u = Max || other.l = Min || other.u = Max) then
      ofBounds .regular _bw 0 1
    else do
      let common ← this.intersectWith other
      let areTheyEqual := !common.isEmpty
      let areTheyDifferent := !(decide (this.l = this.u) && this.isSameRange other)
      if areTheyEqual && areTheyDifferent then ofBounds .regular _bw 0 1
      else if areTheyEqual && !areTheyDifferent then ofBounds .regular _bw equal equal
      else if !areTheyEqual && areTheyDifferent then ofBounds .regular _bw different different
      else .error (.unreachable "condition unexpected")

def Eq (this other : Range) (_bw : Nat) : Except Error Range := equality this other _bw 1 0

def Ne (this other : Range) (_bw : Nat) : Except Error Range := equality this other _bw 0 1

/-- The common body of the extrema: `test` decides whether `this` is returned. -/
def extremum (this other : Range) (test : Range → Range → Nat → Except Error Range)
    (getMin getMax : Range → Except Error APInt) (pick : List APInt → APInt) :
    Except Error Range :=
  onProper this other this.bw <|
    if this.isAnti || other.isAnti then ofType .regular this.bw
    else do
      let thisWins ← test this other 1
      if thisWins.isConstant then do
        let bit ← thisWins.getUnsignedMin
        .ok (if bit ≠ 0 then this else other)
      else do
        let thisMin ← getMin this
        let otherMin ← getMin other
        let thisMax ← getMax this
        let otherMax ← getMax other
        ofBounds .regular this.bw (pick [thisMin, otherMin]) (pick [thisMax, otherMax])

def SMin (this other : Range) : Except Error Range :=
  extremum this other Slt getSignedMin getSignedMax minElement

def SMax (this other : Range) : Except Error Range :=
  extremum this other Sgt getSignedMin getSignedMax maxElement

def UMin (this other : Range) : Except Error Range :=
  extremum this other Ult getUnsignedMin getUnsignedMax minElement

def UMax (this other : Range) : Except Error Range :=
  extremum this other Ugt getUnsignedMin getUnsignedMax maxElement

/-! ## Truth values -/

/-- The `k`-bit encoding of a truth value. -/
def truth (k : Nat) (p : Prop) [Decidable p] : Int := signedResidue k (if p then 1 else 0)

section Truth

variable {a b : Range} {k : Nat} {v x y : Int} {lb ub : APInt}

theorem holds_unknown (hk : 0 < k ∧ k ≤ maxDigits) (hv : v ∈ signedRange k) :
    Holds (ofType .unknown k) k v := by
  rw [ofType, dif_pos hk, holds_ok]
  exact ⟨rfl, hv, trivial⟩

/-- Operands with a value each reach the body, or the answer is Unknown. -/
theorem onProper_holds {w : Nat} {body : Except Error Range} (hk : 0 < w ∧ w ≤ maxDigits)
    (hv : v ∈ signedRange w) (hx : x ∈ a.gamma) (hy : y ∈ b.gamma)
    (h : a.Proper → b.Proper → Holds (onProper a b w body) w v) :
    Holds (onProper a b w body) w v := by
  have hne : ∀ {r : Range} {z : Int}, z ∈ r.gamma → r.type ≠ .empty := fun hz he => by
    rw [gamma_of_empty he] at hz
    exact hz
  by_cases hu : a.type = .unknown ∨ b.type = .unknown
  · unfold onProper
    rw [if_neg, if_pos]
    · exact holds_unknown hk hv
    · rwa [Bool.or_eq_true, isUnknown_iff, isUnknown_iff]
    · rw [Bool.or_eq_true, isEmpty_iff, isEmpty_iff]
      exact not_or.mpr ⟨hne hx, hne hy⟩
  · obtain ⟨hua, hub⟩ := not_or.mp hu
    exact h (proper_of_mem hua hx) (proper_of_mem hub hy)

/-- Between bits the answer holds what lies between them. -/
theorem holds_bits (hk : 0 < k ∧ k ≤ maxDigits) (hlb : 0 ≤ lb.val) (hub : ub.val ≤ 1)
    (hlv : lb.val ≤ v) (hvu : v ≤ ub.val) :
    Holds (ofBounds .regular k lb ub) k (signedResidue k v) := by
  have hP := half_pos k
  have h4 := four_le_half_maxDigits
  rcases Nat.lt_or_eq_of_le hk.2 with hlt | rfl
  · exact holds_regular_near hk.1 hlt (by omega) (by omega) (by omega) hlv hvu
  · exact RegularSound.holds hk.1 (regularSound_maxDigits (by omega) (by omega) (by omega)) hlv hvu

theorem holds_either (hk : 0 < k ∧ k ≤ maxDigits) (p : Prop) [Decidable p] :
    Holds (ofBounds .regular k 0 1) k (truth k p) := by
  have h0 : (0 : APInt).val = 0 := SignMag.val_zero
  have h1 := one_val
  refine holds_bits hk (by omega) (by omega) ?_ ?_ <;> split <;> omega

theorem holds_true (hk : 0 < k ∧ k ≤ maxDigits) {p : Prop} [Decidable p] (hp : p) :
    Holds (ofBounds .regular k 1 1) k (truth k p) := by
  have h1 := one_val
  unfold truth
  rw [if_pos hp]
  exact holds_bits hk (by omega) (by omega) (by omega) (by omega)

theorem holds_false (hk : 0 < k ∧ k ≤ maxDigits) {p : Prop} [Decidable p] (hp : ¬ p) :
    Holds (ofBounds .regular k 0 0) k (truth k p) := by
  have h0 : (0 : APInt).val = 0 := SignMag.val_zero
  unfold truth
  rw [if_neg hp]
  exact holds_bits hk (by omega) (by omega) (by omega) (by omega)

theorem truth_mem (hk : 0 < k) (p : Prop) [Decidable p] : truth k p ∈ signedRange k :=
  signedResidue_mem hk _

/-! ## Comparison by order -/

/-- The accessors enclose the readings of the values of `r`. -/
def Hull (getMin getMax : Range → Except Error APInt) (reading : Int → Int) (r : Range)
    (a b : APInt) : Prop :=
  getMin r = .ok a ∧ getMax r = .ok b ∧ ∀ x ∈ r.gamma, a.val ≤ reading x ∧ reading x ≤ b.val

/-- Two tests on the extrema of `x` and `y` decide `P x y`, each in its
    direction. -/
def Decides (always never : APInt → APInt → APInt → APInt → Bool) (P : Int → Int → Prop) : Prop :=
  ∀ a b c d : APInt, ∀ x y : Int, a.val ≤ x → x ≤ b.val → c.val ≤ y → y ≤ d.val →
    (always a b c d = true → P x y) ∧ (never a b c d = true → ¬ P x y)

theorem decides_gt : Decides (fun a _ _ d => a > d) (fun _ b c _ => c ≥ b) (· > ·) := by
  intro a b c d x y h1 h2 h3 h4
  simp only [decide_eq_true_eq, gt_iff_lt, ge_iff_le, SignMag.lt_iff, SignMag.le_iff]
  omega

theorem decides_ge : Decides (fun a _ _ d => a ≥ d) (fun _ b c _ => c > b) (· ≥ ·) := by
  intro a b c d x y h1 h2 h3 h4
  simp only [decide_eq_true_eq, gt_iff_lt, ge_iff_le, SignMag.lt_iff, SignMag.le_iff]
  omega

theorem decides_lt : Decides (fun _ b c _ => b < c) (fun a _ _ d => d ≤ a) (· < ·) := by
  intro a b c d x y h1 h2 h3 h4
  simp only [decide_eq_true_eq, SignMag.lt_iff, SignMag.le_iff]
  omega

theorem decides_le : Decides (fun _ b c _ => b ≤ c) (fun a _ _ d => d < a) (· ≤ ·) := by
  intro a b c d x y h1 h2 h3 h4
  simp only [decide_eq_true_eq, SignMag.lt_iff, SignMag.le_iff]
  omega

section Relation

variable {getMin getMax : Range → Except Error APInt} {reading : Int → Int}
  {always never : APInt → APInt → APInt → APInt → Bool} {P : Int → Int → Prop} [DecidableRel P]
  {m n p q : APInt}

/-- The three answers on Regular operands. -/
theorem relation_of_hull (ha : a.type = .regular) (hb : b.type = .regular)
    (hma : Hull getMin getMax reading a m n) (hmb : Hull getMin getMax reading b p q) :
    relation a b k getMin getMax always never =
      if always m n p q then ofBounds .regular k 1 1
      else if never m n p q then ofBounds .regular k 0 0
      else ofBounds .regular k 0 1 := by
  unfold relation
  rw [onProper_of (Or.inl ha) (Or.inl hb), if_neg (by simp [ha, hb]), hma.1, hma.2.1, hmb.1,
    hmb.2.1]
  rfl

theorem relation_holds (reading : Int → Int) (hk : 0 < k ∧ k ≤ maxDigits)
    (hd : Decides always never P)
    (hha : a.Proper → ∃ m n, Hull getMin getMax reading a m n)
    (hhb : b.Proper → ∃ p q, Hull getMin getMax reading b p q)
    (hx : x ∈ a.gamma) (hy : y ∈ b.gamma) :
    Holds (relation a b k getMin getMax always never) k
      (truth k (P (reading x) (reading y))) := by
  refine onProper_holds hk (truth_mem hk.1 _) hx hy fun hpa hpb => ?_
  rw [onProper_of hpa hpb]
  by_cases hanti : (a.isAnti || b.isAnti) = true
  · rw [if_pos hanti]
    exact holds_either hk _
  obtain ⟨m, n, hm, hn, hmn⟩ := hha hpa
  obtain ⟨p, q, hp, hq, hpq⟩ := hhb hpb
  obtain ⟨halways, hnever⟩ := hd m n p q _ _ (hmn x hx).1 (hmn x hx).2 (hpq y hy).1 (hpq y hy).2
  rw [if_neg hanti, hm, hn, hp, hq, ok_bind, ok_bind, ok_bind, ok_bind]
  by_cases h1 : always m n p q = true
  · rw [if_pos h1]
    exact holds_true hk (halways h1)
  by_cases h2 : never m n p q = true
  · rw [if_neg h1, if_pos h2]
    exact holds_false hk (hnever h2)
  · rw [if_neg h1, if_neg h2]
    exact holds_either hk _

end Relation

theorem hull_signed (hp : a.Proper) (hwf : a.WellFormed) :
    ∃ m n, Hull getSignedMin getSignedMax id a m n := by
  obtain ⟨m, n, hm, hn, -, -, -, h⟩ := exists_signedHull hp hwf
  exact ⟨m, n, hm, hn, h⟩

theorem UnsignedHull.hull {m n : APInt} (h : UnsignedHull a m n) :
    Hull getUnsignedMin getUnsignedMax (· % 2 ^ a.bw) a m n :=
  ⟨h.1, h.2.1, h.2.2.2.2⟩

theorem hull_unsigned (hw : a.bw < maxDigits) (hp : a.Proper) (hwf : a.WellFormed) :
    ∃ m n, Hull getUnsignedMin getUnsignedMax (· % 2 ^ a.bw) a m n := by
  obtain ⟨m, n, h⟩ := exists_unsignedHull hw hp hwf
  exact ⟨m, n, h.hull⟩

end Truth

/-! ## `Eq` and `Ne` -/

section Equality

variable {a b : Range} {k : Nat} {x y : Int} {e d : APInt}

theorem isSameRange_iff :
    a.isSameRange b = true ↔ a.bw = b.bw ∧ a.type = b.type ∧ a.l = b.l ∧ a.u = b.u := by
  simp only [isSameRange, Bool.and_eq_true, beq_iff_eq, decide_eq_true_eq, and_assoc]

/-- Two ranges that `areTheyDifferent` cannot tell apart hold one value, the
    same. -/
theorem point_of_same (hwf : a.WellFormed) (hanti : ¬ (a.isAnti && b.isAnti) = true)
    (ha : a.Proper) (h : (decide (a.l = a.u) && a.isSameRange b) = true) :
    a.l.val ∈ a.gamma ∧ ∀ x ∈ a.gamma, ∀ y ∈ b.gamma, x = y := by
  rw [Bool.and_eq_true, decide_eq_true_eq, isSameRange_iff] at h
  obtain ⟨hlu, hbw, ht, hl, hu⟩ := h
  have hreg : a.type = .regular := by
    rcases ha with h' | h'
    · exact h'
    · exact absurd (by simp [← ht, h']) hanti
  have hC := half_pos maxDigits
  have hluv : a.l.val = a.u.val := by rw [hlu]
  have hbl : b.l.val = a.l.val := by rw [hl]
  have hbu : b.u.val = a.u.val := by rw [hu]
  refine ⟨?_, fun x hx y hy => ?_⟩
  · rw [mem_gamma_of_regular hreg]
    rcases hwf.regular_bounds hreg with h' | h' <;> omega
  · obtain ⟨-, hx⟩ := (mem_gamma_of_regular hreg).mp hx
    obtain ⟨-, hy⟩ := (mem_gamma_of_regular (ht ▸ hreg)).mp hy
    omega

/-- The three answers of `Eq` and `Ne`, and what the constant ones say. -/
def Answers (a b : Range) (k : Nat) (e d : APInt) (r : Except Error Range) : Prop :=
  r = ofBounds .regular k 0 1 ∨
    (r = ofBounds .regular k e e ∧ ∀ x ∈ a.gamma, ∀ y ∈ b.gamma, x = y) ∨
    (r = ofBounds .regular k d d ∧ ∀ x ∈ a.gamma, ∀ y ∈ b.gamma, x ≠ y)

/-- Of the four arms the last, which throws, is not taken: operands that are one
    and the same value meet. -/
theorem equality_answers (hwa : a.WellFormed) (hwb : b.WellFormed) (hbw : b.bw = a.bw)
    (ha : a.Proper) (hb : b.Proper) : Answers a b k e d (equality a b k e d) := by
  have hne : ∀ {r : Range}, r.Proper → r.type ≠ .unknown := fun h hu =>
    h.not_unknown (isUnknown_iff.mpr hu)
  obtain ⟨r, hr, -, hsub, hempty, -⟩ := intersectSound_of_wellFormed hwa hwb hbw (hne ha) (hne hb)
  unfold equality
  rw [onProper_of ha hb]
  by_cases hanti : (a.isAnti && b.isAnti) = true
  · rw [if_pos hanti]
    exact Or.inl rfl
  rw [if_neg hanti]
  split
  · exact Or.inl rfl
  rw [hr, ok_bind]
  by_cases hsame : (decide (a.l = a.u) && a.isSameRange b) = true
  · obtain ⟨hl, heq⟩ := point_of_same hwa hanti ha hsame
    have hmeet : r.isEmpty = false := by
      obtain ⟨-, hbw', ht, hbl, hbu⟩ : _ ∧ a.bw = b.bw ∧ a.type = b.type ∧ a.l = b.l ∧
        a.u = b.u := by
        rwa [Bool.and_eq_true, isSameRange_iff] at hsame
      rw [Bool.eq_false_iff, ne_eq, isEmpty_iff]
      intro h
      have hlb : a.l.val ∈ b.gamma := by
        rw [mem_gamma] at hl ⊢
        rwa [← hbw', ← ht, ← hbl, ← hbu]
      exact absurd (hempty h) (Set.Nonempty.ne_empty ⟨_, hl, hlb⟩)
    simp only [hsame, hmeet, Bool.not_true, Bool.not_false, Bool.and_false, Bool.false_eq_true,
      if_false, Bool.and_self, if_true]
    exact Or.inr (Or.inl ⟨rfl, heq⟩)
  · rw [Bool.not_eq_true] at hsame
    cases hmeet : r.isEmpty with
    | true =>
      simp only [hsame, Bool.not_true, Bool.not_false, Bool.false_and,
        Bool.false_eq_true, if_false, Bool.and_self, if_true]
      refine Or.inr (Or.inr ⟨rfl, fun x hx y hy hxy => ?_⟩)
      have hcommon : x ∈ a.gamma ∩ b.gamma := ⟨hx, hxy ▸ hy⟩
      rw [hempty (isEmpty_iff.mp hmeet)] at hcommon
      exact hcommon
    | false =>
      simp only [hsame, Bool.not_false, Bool.and_self, if_true]
      exact Or.inl rfl

theorem equality_of_improper (h : ¬ (a.Proper ∧ b.Proper)) (k : Nat) (e d : APInt) :
    equality a b k e d = ofType .empty k ∨ equality a b k e d = ofType .unknown k := by
  unfold equality onProper
  by_cases he : (a.isEmpty || b.isEmpty) = true
  · exact Or.inl (if_pos he)
  by_cases hu : (a.isUnknown || b.isUnknown) = true
  · rw [if_neg he, if_pos hu]
    exact Or.inr rfl
  · rw [Bool.or_eq_true, not_or, isEmpty_iff, isEmpty_iff] at he
    rw [Bool.or_eq_true, not_or, isUnknown_iff, isUnknown_iff] at hu
    exact absurd ⟨proper_of_ne he.1 hu.1, proper_of_ne he.2 hu.2⟩ h

theorem ofBounds_bits (hk : 0 < k ∧ k ≤ maxDigits) {lb ub : APInt} (hlb : 0 ≤ lb.val)
    (hle : lb.val ≤ ub.val) (hub : ub.val ≤ 1) : ∃ r, ofBounds .regular k lb ub = .ok r := by
  obtain ⟨r, hr, -⟩ := holds_bits hk hlb hub (le_refl _) hle
  exact ⟨r, hr⟩

/-- Neither predicate throws. -/
theorem equality_ok (hwa : a.WellFormed) (hwb : b.WellFormed) (hbw : b.bw = a.bw)
    (hk : 0 < k ∧ k ≤ maxDigits) (he : 0 ≤ e.val ∧ e.val ≤ 1) (hd : 0 ≤ d.val ∧ d.val ≤ 1) :
    ∃ r, equality a b k e d = .ok r := by
  have h0 : (0 : APInt).val = 0 := SignMag.val_zero
  have h1 := one_val
  by_cases hp : a.Proper ∧ b.Proper
  · have h := equality_answers (k := k) (e := e) (d := d) hwa hwb hbw hp.1 hp.2
    rcases h with h | ⟨h, -⟩ | ⟨h, -⟩ <;> rw [h]
    · exact ofBounds_bits hk (by omega) (by omega) (by omega)
    · exact ofBounds_bits hk he.1 (le_refl _) he.2
    · exact ofBounds_bits hk hd.1 (le_refl _) hd.2
  · rcases equality_of_improper hp k e d with h | h <;> rw [h, ofType, dif_pos hk] <;>
      exact ⟨_, rfl⟩

theorem equality_holds (hwa : a.WellFormed) (hwb : b.WellFormed) (hbw : b.bw = a.bw)
    (hk : 0 < k ∧ k ≤ maxDigits) (hx : x ∈ a.gamma) (hy : y ∈ b.gamma) (P : Prop) [Decidable P]
    (heq : x = y → Holds (ofBounds .regular k e e) k (truth k P))
    (hne : x ≠ y → Holds (ofBounds .regular k d d) k (truth k P)) :
    Holds (equality a b k e d) k (truth k P) := by
  refine onProper_holds hk (truth_mem hk.1 _) hx hy fun hpa hpb => ?_
  change Holds (equality a b k e d) k _
  rcases equality_answers (k := k) (e := e) (d := d) hwa hwb hbw hpa hpb with h | ⟨h, hxy⟩ | ⟨h, hxy⟩
  · rw [h]
    exact holds_either hk P
  · rw [h]
    exact heq (hxy x hx y hy)
  · rw [h]
    exact hne (hxy x hx y hy)

theorem Eq_holds (hwa : a.WellFormed) (hwb : b.WellFormed) (hbw : b.bw = a.bw)
    (hk : 0 < k ∧ k ≤ maxDigits) (hx : x ∈ a.gamma) (hy : y ∈ b.gamma) :
    Holds (a.Eq b k) k (truth k (x = y)) :=
  equality_holds hwa hwb hbw hk hx hy _ (holds_true hk) (holds_false hk)

theorem Ne_holds (hwa : a.WellFormed) (hwb : b.WellFormed) (hbw : b.bw = a.bw)
    (hk : 0 < k ∧ k ≤ maxDigits) (hx : x ∈ a.gamma) (hy : y ∈ b.gamma) :
    Holds (a.Ne b k) k (truth k (x ≠ y)) :=
  equality_holds hwa hwb hbw hk hx hy _ (fun h => holds_false hk (not_not_intro h))
    (holds_true hk)

end Equality

/-! ## Extrema -/

section Extremum

variable {a b : Range} {x y : Int} {m n p q lb ub : APInt} {w : Nat}

theorem minElement_pair (m p : APInt) : (minElement [m, p]).val = min m.val p.val := by
  obtain ⟨hmem, hle⟩ := minElement_spec (List.cons_ne_nil m [p])
  have h1 := hle m (by simp)
  have h2 := hle p (by simp)
  simp only [List.mem_cons, List.not_mem_nil, or_false] at hmem
  rcases hmem with h | h <;> rw [h] at h1 h2 ⊢ <;> omega

theorem maxElement_pair (m p : APInt) : (maxElement [m, p]).val = max m.val p.val := by
  obtain ⟨hmem, hle⟩ := maxElement_spec (List.cons_ne_nil m [p])
  have h1 := hle m (by simp)
  have h2 := hle p (by simp)
  simp only [List.mem_cons, List.not_mem_nil, or_false] at hmem
  rcases hmem with h | h <;> rw [h] at h1 h2 ⊢ <;> omega

section Body

variable {getMin getMax : Range → Except Error APInt} {reading : Int → Int}
  {always never : APInt → APInt → APInt → APInt → Bool} {pick : List APInt → APInt}
  {P : Int → Int → Prop} [DecidableRel P]

/-- The three answers of a comparison, with what an extremum reads of them. -/
def answers : {p : Range × Range × Range //
    (ofBounds .regular 1 1 1 = .ok p.1 ∧ p.1.isConstant = true ∧ getUnsignedMin p.1 = .ok 1) ∧
    (ofBounds .regular 1 0 0 = .ok p.2.1 ∧ p.2.1.isConstant = true ∧
      getUnsignedMin p.2.1 = .ok 0) ∧
    (ofBounds .regular 1 0 1 = .ok p.2.2 ∧ ¬ p.2.2.isConstant = true) ∧ (1 : APInt) ≠ 0} :=
  ⟨(⟨-1, -1, 1, .regular, by decide⟩, ⟨0, 0, 1, .regular, by decide⟩,
    ⟨Min, Max, 1, .regular, by decide⟩), by decide +kernel⟩

/-- A one-bit answer is constant when a test decided it. -/
theorem extremum_of_hull (ha : a.type = .regular) (hb : b.type = .regular)
    (hma : Hull getMin getMax reading a m n) (hmb : Hull getMin getMax reading b p q) :
    extremum a b (fun this other k => relation this other k getMin getMax always never)
        getMin getMax pick =
      if always m n p q then .ok a
      else if never m n p q then .ok b
      else ofBounds .regular a.bw (pick [m, p]) (pick [n, q]) := by
  obtain ⟨⟨htrue, htrueconst, htruebit⟩, ⟨hfalse, hfalseconst, hfalsebit⟩,
    ⟨heither, heitherconst⟩, hone⟩ := answers.property
  unfold extremum
  rw [onProper_of (Or.inl ha) (Or.inl hb), if_neg (by simp [ha, hb])]
  beta_reduce
  rw [relation_of_hull ha hb hma hmb]
  by_cases h1 : always m n p q = true
  · rw [if_pos h1, if_pos h1, htrue, ok_bind, if_pos htrueconst, htruebit, ok_bind, if_pos hone]
  by_cases h2 : never m n p q = true
  · rw [if_neg h1, if_neg h1, if_pos h2, if_pos h2, hfalse, ok_bind, if_pos hfalseconst,
      hfalsebit, ok_bind, if_neg (not_not.mpr rfl)]
  · rw [if_neg h1, if_neg h1, if_neg h2, if_neg h2, heither, ok_bind, if_neg heitherconst,
      hma.1, hmb.1, hma.2.1, hmb.2.1]
    rfl

/-- The value selected by the comparison is kept, when the range of the selected
    extrema keeps it. -/
theorem extremum_holds (hbw : b.bw = a.bw) (hd : Decides always never P) (ha : a.Proper)
    (hb : b.Proper) (hma : Hull getMin getMax reading a m n)
    (hmb : Hull getMin getMax reading b p q) (hx : x ∈ a.gamma) (hy : y ∈ b.gamma)
    (hpick : a.type = .regular → b.type = .regular → ¬ always m n p q = true →
      ¬ never m n p q = true → Holds (ofBounds .regular a.bw (pick [m, p]) (pick [n, q])) a.bw
        (if P (reading x) (reading y) then x else y)) :
    Holds (extremum a b (fun this other k => relation this other k getMin getMax always never)
      getMin getMax pick) a.bw (if P (reading x) (reading y) then x else y) := by
  by_cases hreg : a.type = .regular ∧ b.type = .regular
  · obtain ⟨hra, hrb⟩ := hreg
    obtain ⟨halways, hnever⟩ := hd m n p q _ _ (hma.2.2 x hx).1 (hma.2.2 x hx).2
      (hmb.2.2 y hy).1 (hmb.2.2 y hy).2
    rw [extremum_of_hull hra hrb hma hmb]
    by_cases h1 : always m n p q = true
    · rw [if_pos h1, if_pos (halways h1), holds_ok]
      exact ⟨rfl, hx⟩
    by_cases h2 : never m n p q = true
    · rw [if_neg h1, if_pos h2, if_neg (hnever h2), holds_ok]
      exact ⟨hbw, hy⟩
    · rw [if_neg h1, if_neg h2]
      exact hpick hra hrb h1 h2
  · -- an Anti operand gives the full range
    have hanti : (a.isAnti || b.isAnti) = true := by
      rw [Bool.or_eq_true, isAnti_iff, isAnti_iff]
      rcases ha with h | h
      · rcases hb with h' | h'
        · exact absurd ⟨h, h'⟩ hreg
        · exact Or.inr h'
      · exact Or.inl h
    unfold extremum
    rw [onProper_of ha hb, if_pos hanti]
    refine holds_full a.bw_valid ?_
    split
    · exact hx.1
    · exact hbw ▸ hy.1

end Body

/-! ### Signed extrema -/

theorem SMin_holds (hwa : a.WellFormed) (hwb : b.WellFormed) (hbw : b.bw = a.bw)
    (hx : x ∈ a.gamma) (hy : y ∈ b.gamma) : Holds (a.SMin b) a.bw (min x y) := by
  have hv : min x y ∈ signedRange a.bw := by
    rcases min_choice x y with h | h <;> rw [h]
    · exact hx.1
    · exact hbw ▸ hy.1
  refine onProper_holds a.bw_valid hv hx hy fun ha hb => ?_
  obtain ⟨m, n, hm, hn, hmlo, hmn, hnhi, hax⟩ := exists_signedHull ha hwa
  obtain ⟨p, q, hp, hq, hplo, hpq, hqhi, hby⟩ := exists_signedHull hb hwb
  rw [hbw] at hplo hqhi
  have hsel : min x y = if id x < id y then x else y := by
    simp only [id]
    split <;> omega
  rw [hsel] at hv ⊢
  refine extremum_holds hbw decides_lt ha hb ⟨hm, hn, hax⟩ ⟨hp, hq, hby⟩ hx hy
    fun _ _ _ _ => ?_
  have hmin := minElement_pair m p
  have hmax := minElement_pair n q
  have h1 := hax x hx
  have h2 := hby y hy
  rw [holds_regular_iff a.bw_valid.1 a.bw_valid.2 (by omega) (by omega) (by omega), ← hsel]
  exact ⟨hsel ▸ hv, by omega, by omega⟩

theorem SMax_holds (hwa : a.WellFormed) (hwb : b.WellFormed) (hbw : b.bw = a.bw)
    (hx : x ∈ a.gamma) (hy : y ∈ b.gamma) : Holds (a.SMax b) a.bw (max x y) := by
  have hv : max x y ∈ signedRange a.bw := by
    rcases max_choice x y with h | h <;> rw [h]
    · exact hx.1
    · exact hbw ▸ hy.1
  refine onProper_holds a.bw_valid hv hx hy fun ha hb => ?_
  obtain ⟨m, n, hm, hn, hmlo, hmn, hnhi, hax⟩ := exists_signedHull ha hwa
  obtain ⟨p, q, hp, hq, hplo, hpq, hqhi, hby⟩ := exists_signedHull hb hwb
  rw [hbw] at hplo hqhi
  have hsel : max x y = if id x > id y then x else y := by
    simp only [id]
    split <;> omega
  rw [hsel] at hv ⊢
  refine extremum_holds hbw decides_gt ha hb ⟨hm, hn, hax⟩ ⟨hp, hq, hby⟩ hx hy
    fun _ _ _ _ => ?_
  have hmin := maxElement_pair m p
  have hmax := maxElement_pair n q
  have h1 := hax x hx
  have h2 := hby y hy
  rw [holds_regular_iff a.bw_valid.1 a.bw_valid.2 (by omega) (by omega) (by omega), ← hsel]
  exact ⟨hsel ▸ hv, by omega, by omega⟩

/-! ### Unsigned extrema -/

/-- A Regular range with values on both sides of zero has `-1` and zero. -/
theorem zero_mem_of_crossing (ht : a.type = .regular) (hx : x ∈ a.gamma) (hneg : x < 0)
    (hy : y ∈ a.gamma) (hpos : 0 ≤ y) : (-1 : Int) ∈ a.gamma ∧ (0 : Int) ∈ a.gamma := by
  have hP := half_pos a.bw
  rw [mem_gamma_of_regular ht] at hx hy ⊢
  rw [mem_gamma_of_regular ht]
  omega

/-- On a Regular range the unsigned extrema are readings of two of its values. -/
theorem UnsignedHull.attained (hw : a.bw < maxDigits) (ht : a.type = .regular)
    (hwf : a.WellFormed) (h : UnsignedHull a m n) :
    (∃ x ∈ a.gamma, x % 2 ^ a.bw = m.val) ∧ ∃ x ∈ a.gamma, x % 2 ^ a.bw = n.val := by
  have h0 := a.bw_valid.1
  have hP := half_pos a.bw
  have hcap := half_le_half a.bw_valid.2
  obtain ⟨hm, hn, hm0, hn2, hall⟩ := h
  have hzero : (0 : Int) % 2 ^ a.bw = 0 := Int.zero_emod _
  have hone : (-1 : Int) % 2 ^ a.bw = 2 * half a.bw - 1 := by
    rw [emod_of_neg h0 (by omega) (by omega)]
    omega
  by_cases hcross : (-1 : Int) ∈ a.gamma ∧ (0 : Int) ∈ a.gamma
  · have h1 := hall _ hcross.1
    have h2 := hall _ hcross.2
    exact ⟨⟨0, hcross.2, by omega⟩, -1, hcross.1, by omega⟩
  -- a range of one sign is within the limits, and its bounds are the extrema
  have hlim : a.InLimits := by
    rcases hwf.1 ht with ⟨hl, hu⟩ | h'
    · rw [gamma_of_infinite ht hl hu, mem_signedRange, mem_signedRange] at hcross
      omega
    · exact h'
  have hlim' := hlim
  obtain ⟨h1, h2, h3⟩ := hlim'
  have hmem : ∀ z, a.l.val ≤ z → z ≤ a.u.val → z ∈ a.gamma := fun z hlz hzu => by
    rw [gamma_of_limits ht hlim]
    exact ⟨hlz, hzu⟩
  have hsign : a.u.val < 0 ∨ 0 ≤ a.l.val := by
    by_contra hs
    exact hcross ⟨hmem _ (by omega) (by omega), hmem _ (by omega) (by omega)⟩
  have hp : a.Proper := Or.inl ht
  have hna : ¬ a.isAnti = true := by simp [ht]
  unfold getUnsignedMin at hm
  unfold getUnsignedMax at hn
  rw [throwAssert_of ⟨hp.not_unknown, hp.not_empty⟩, ok_bind, if_neg hna] at hm hn
  simp only [zero_lt_iff, lt_zero_iff, zero_le_iff, Except.ok.injEq] at hm hn
  refine ⟨⟨a.l.val, hmem _ (le_refl _) h2, ?_⟩, a.u.val, hmem _ h2 (le_refl _), ?_⟩
  · rw [← hm]
    split
    · rw [extTrunc_unsigned_val h0 hw]
    · rw [getMinValue_val, emod_of_nonneg h0 (by omega) (by omega)]
      omega
  · rw [← hn, if_pos (by omega), extTrunc_unsigned_val h0 hw]

/-- From a bound past the signed limits to `Max`, one bit below the capacity. -/
theorem holds_above_toMax {k : Int} (hw : 0 < w ∧ w ≤ maxDigits) (htop : w + 1 = maxDigits)
    (hlo : half w ≤ lb.val) (hmax : ub.val = half maxDigits - 1) (hlk : lb.val ≤ k)
    (hku : k ≤ ub.val) : Holds (ofBounds .regular w lb ub) w (signedResidue w k) := by
  have hP := half_pos w
  have hhalf := half_of_succ hw.1 htop
  have hlt : w < maxDigits := by omega
  rw [(yields_regular_toMax hw (by omega) (by omega) (by omega) hmax
    ((normalizeToMax_above hw.1 hlt hlo (by omega)).repair (by omega))).holds_iff,
    signedResidue_past_upper hw.1 (by omega) (by omega)]
  exact ⟨⟨by omega, by omega⟩, by show _ ≤ _; omega, by omega⟩

/-- One bit below the capacity the greatest unsigned value is `Max`, an infinite
    bound: the values past the signed limit are cut off. -/
def UMinLoss (a b : Range) : Prop :=
  a.bw + 1 = maxDigits ∧ a.type = .regular ∧ b.type = .regular ∧ -1 ∈ a.gamma ∧ -1 ∈ b.gamma ∧
    (∃ x ∈ a.gamma ∪ b.gamma, 0 ≤ x) ∧ ∃ x ∈ a.gamma, x ≠ -1

def UMaxLoss (a b : Range) : Prop :=
  a.bw + 1 = maxDigits ∧ a.type = .regular ∧ b.type = .regular ∧ (∃ x ∈ a.gamma, 0 ≤ x) ∧
    (∃ y ∈ b.gamma, 0 ≤ y) ∧ (-1 ∈ a.gamma ∨ (-1 ∈ b.gamma ∧ ∃ x ∈ a.gamma, 0 < x))

/-- The lesser and the greater of two values in unsigned order. -/
def unsignedMin (w : Nat) (x y : Int) : Int := if x % 2 ^ w < y % 2 ^ w then x else y
def unsignedMax (w : Nat) (x y : Int) : Int := if x % 2 ^ w > y % 2 ^ w then x else y

/-- The readings of the selected value, and the value as their residue. -/
theorem select_eq (hx : x ∈ signedRange w) (hy : y ∈ signedRange w) (hw : 0 < w) (P : Prop)
    [Decidable P] : signedResidue w (if P then x % 2 ^ w else y % 2 ^ w) = if P then x else y := by
  split
  · rw [signedResidue_emod, signedResidue_of_mem hw hx.1 hx.2]
  · rw [signedResidue_emod, signedResidue_of_mem hw hy.1 hy.2]

/-- Extrema are kept, but for an infinite upper bound above a lower bound within
    the signed limits. -/
theorem holds_extrema {k : Int} (h0 : 0 < w) (hw : w < maxDigits) (hlo : 0 ≤ lb.val)
    (hhi : ub.val < 2 * half w) (hlk : lb.val ≤ k) (hku : k ≤ ub.val)
    (hcut : w + 1 = maxDigits → ub.val = 2 * half w - 1 → half w ≤ lb.val) :
    Holds (ofBounds .regular w lb ub) w (signedResidue w k) := by
  have hP := half_pos w
  have hcap := two_mul_half_le h0 hw
  by_cases hmax : ub.val < half maxDigits - 1
  · exact holds_regular_near h0 hw (by omega) hhi hmax hlk hku
  · have htop := succ_eq_maxDigits h0 hw (by omega)
    exact holds_above_toMax ⟨h0, hw.le⟩ htop (hcut htop (by omega)) (by omega) hlk hku

theorem emod_eq_top (hw : 0 < w) (hx : x ∈ signedRange w) (h : x % 2 ^ w = 2 * half w - 1) :
    x = -1 := by
  obtain ⟨h1, h2⟩ := hx
  have hP := half_pos w
  by_cases hx0 : 0 ≤ x
  · rw [emod_of_nonneg hw hx0 (by omega)] at h
    omega
  · rw [emod_of_neg hw (by omega) (by omega)] at h
    omega

theorem nonneg_of_emod_lt (hw : 0 < w) (hx : x ∈ signedRange w) (h : x % 2 ^ w < half w) :
    0 ≤ x := by
  obtain ⟨h1, h2⟩ := hx
  by_contra hx0
  rw [emod_of_neg hw (by omega) (by omega)] at h
  omega

theorem UMin_holds (hwa : a.WellFormed) (hwb : b.WellFormed) (hbw : b.bw = a.bw)
    (hw : a.bw < maxDigits) (hloss : ¬ UMinLoss a b) (hx : x ∈ a.gamma) (hy : y ∈ b.gamma) :
    Holds (a.UMin b) a.bw (unsignedMin a.bw x y) := by
  have h0 := a.bw_valid.1
  have hy' : y ∈ signedRange a.bw := hbw ▸ hy.1
  have hv : unsignedMin a.bw x y ∈ signedRange a.bw := by
    unfold unsignedMin
    split
    · exact hx.1
    · exact hy'
  refine onProper_holds a.bw_valid hv hx hy fun ha hb => ?_
  obtain ⟨m, n, hma⟩ := exists_unsignedHull hw ha hwa
  obtain ⟨p, q, hmb⟩ := exists_unsignedHull (hbw ▸ hw) hb hwb
  have hhb := hmb.hull
  rw [hbw] at hhb
  refine extremum_holds hbw decides_lt ha hb hma.hull hhb hx hy fun hra hrb _ hnever => ?_
  simp only [decide_eq_true_eq, SignMag.le_iff] at hnever
  have hmin := minElement_pair m p
  have hmax := minElement_pair n q
  have h1 := hma.2.2.2.2 x hx
  have h2 := hhb.2.2 y hy
  have hpq := hmb.2.2
  rw [hbw] at hpq
  rw [← select_eq hx.1 hy' h0]
  refine holds_extrema h0 hw (by have := hma.2.2.1; omega) (by have := hma.2.2.2.1; omega)
    (by beta_reduce at h2; split <;> omega) (by beta_reduce at h2; split <;> omega)
    fun htop hub => ?_
  -- both greatest values are `-1`, and a nonnegative value besides makes the loss
  by_contra hlt
  obtain ⟨⟨x0, hx0, hxm⟩, x1, hx1, hxn⟩ := hma.attained hw hra hwa
  obtain ⟨⟨y0, hy0, hym⟩, y1, hy1, hyq⟩ := hmb.attained (hbw ▸ hw) hrb hwb
  rw [hbw] at hym hyq
  have hn2 := hma.2.2.2.1
  have htopa := emod_eq_top h0 hx1.1 (by omega)
  have htopb := emod_eq_top h0 (hbw ▸ hy1.1) (by omega)
  refine hloss ⟨htop, hra, hrb, htopa ▸ hx1, htopb ▸ hy1, ?_, x0, hx0, fun h => ?_⟩
  · by_cases hm : m.val < half a.bw
    · exact ⟨x0, Or.inl hx0, nonneg_of_emod_lt h0 hx0.1 (by omega)⟩
    · exact ⟨y0, Or.inr hy0, nonneg_of_emod_lt h0 (hbw ▸ hy0.1) (by omega)⟩
  · rw [h, ← htopa] at hxm
    omega

theorem UMax_holds (hwa : a.WellFormed) (hwb : b.WellFormed) (hbw : b.bw = a.bw)
    (hw : a.bw < maxDigits) (hloss : ¬ UMaxLoss a b) (hx : x ∈ a.gamma) (hy : y ∈ b.gamma) :
    Holds (a.UMax b) a.bw (unsignedMax a.bw x y) := by
  have h0 := a.bw_valid.1
  have hy' : y ∈ signedRange a.bw := hbw ▸ hy.1
  have hv : unsignedMax a.bw x y ∈ signedRange a.bw := by
    unfold unsignedMax
    split
    · exact hx.1
    · exact hy'
  refine onProper_holds a.bw_valid hv hx hy fun ha hb => ?_
  obtain ⟨m, n, hma⟩ := exists_unsignedHull hw ha hwa
  obtain ⟨p, q, hmb⟩ := exists_unsignedHull (hbw ▸ hw) hb hwb
  have hhb := hmb.hull
  rw [hbw] at hhb
  refine extremum_holds hbw decides_gt ha hb hma.hull hhb hx hy fun hra hrb _ hnever => ?_
  simp only [decide_eq_true_eq, ge_iff_le, SignMag.le_iff] at hnever
  have hmin := maxElement_pair m p
  have hmax := maxElement_pair n q
  have h1 := hma.2.2.2.2 x hx
  have h2 := hhb.2.2 y hy
  have hpq := hmb.2.2
  rw [hbw] at hpq
  have hn2 := hma.2.2.2.1
  have hm0 := hma.2.2.1
  rw [← select_eq hx.1 hy' h0]
  refine holds_extrema h0 hw (by omega) (by omega)
    (by beta_reduce at h2; split <;> omega) (by beta_reduce at h2; split <;> omega)
    fun htop hub => ?_
  -- one greatest value is `-1`, and both least values are nonnegative
  by_contra hlt
  obtain ⟨⟨x0, hx0, hxm⟩, x1, hx1, hxn⟩ := hma.attained hw hra hwa
  obtain ⟨⟨y0, hy0, hym⟩, y1, hy1, hyq⟩ := hmb.attained (hbw ▸ hw) hrb hwb
  rw [hbw] at hym hyq
  have hx0n := nonneg_of_emod_lt h0 hx0.1 (by omega)
  have hy0n := nonneg_of_emod_lt h0 (hbw ▸ hy0.1) (by omega)
  refine hloss ⟨htop, hra, hrb, ⟨x0, hx0, hx0n⟩, ⟨y0, hy0, hy0n⟩, ?_⟩
  by_cases hn : n.val = 2 * half a.bw - 1
  · exact Or.inl (emod_eq_top h0 hx1.1 (by omega) ▸ hx1)
  · have htopb := emod_eq_top h0 (hbw ▸ hy1.1) (by omega)
    by_cases hx1n : x1 < 0
    · exact Or.inl (zero_mem_of_crossing hra hx1 hx1n hx0 hx0n).1
    · refine Or.inr ⟨htopb ▸ hy1, x1, hx1, ?_⟩
      rcases Int.lt_or_eq_of_le (show 0 ≤ x1 by omega) with h | h
      · exact h
      · rw [← h, Int.zero_emod] at hxn
        omega

/-- An infinite upper bound above a nonnegative lower bound loses `-1`. -/
theorem not_holds_cut (hw : 0 < w ∧ w ≤ maxDigits) (hlo : 0 ≤ lb.val) (hhi : lb.val < half w)
    (hmax : ub.val = half maxDigits - 1) : ¬ Holds (ofBounds .regular w lb ub) w (-1) := by
  rw [(yields_cut hw hlo hhi hmax).holds_iff]
  rintro ⟨-, h, -⟩
  omega

theorem not_UMin_holds (hwa : a.WellFormed) (hwb : b.WellFormed) (hbw : b.bw = a.bw)
    (hloss : UMinLoss a b) :
    ¬ ∀ x ∈ a.gamma, ∀ y ∈ b.gamma, Holds (a.UMin b) a.bw (unsignedMin a.bw x y) := by
  obtain ⟨htop, hra, hrb, hna, hnb, ⟨z, hz, hz0⟩, z', hz', hz'n⟩ := hloss
  have h0 := a.bw_valid.1
  have hw : a.bw < maxDigits := by omega
  have hP := half_pos a.bw
  have hhalf := half_of_succ h0 htop
  obtain ⟨m, n, hma⟩ := exists_unsignedHull hw (Or.inl hra) hwa
  obtain ⟨p, q, hmb⟩ := exists_unsignedHull (hbw ▸ hw) (Or.inl hrb) hwb
  have hhb := hmb.hull
  rw [hbw] at hhb
  have hone : (-1 : Int) % 2 ^ a.bw = 2 * half a.bw - 1 := by
    rw [emod_of_neg h0 (by omega) (by omega)]
    omega
  obtain ⟨hmeq, hneq, hm0, hn2, hall⟩ := hma
  obtain ⟨-, -, hp0, hq2, -⟩ := hmb
  rw [hbw] at hq2
  have hn := (hall _ hna).2
  have hpq := hhb.2.2 _ hnb
  beta_reduce at hpq
  rw [hone] at hn hpq
  -- the operands are not decided, since `this` has another value than `-1`
  have hm : m.val < 2 * half a.bw - 1 := by
    have hle := (hall _ hz').1
    have hne : z' % 2 ^ a.bw ≠ 2 * half a.bw - 1 := fun h => hz'n (emod_eq_top h0 hz'.1 h)
    have hlt : z' % 2 ^ a.bw < 2 ^ a.bw := Int.emod_lt_of_pos _ (by positivity)
    have h2 := two_mul_half h0
    omega
  have hlow : min m.val p.val < half a.bw := by
    rcases hz with hz | hz
    · have hle := (hall _ hz).1
      have hzr := hz.1
      rw [emod_of_nonneg h0 hz0 (by omega)] at hle
      omega
    · have hle := (hhb.2.2 _ hz).1
      have hzr := hz.1
      rw [hbw] at hzr
      beta_reduce at hle
      rw [emod_of_nonneg h0 hz0 (by omega)] at hle
      omega
  intro h
  have hneg := h _ hna _ hnb
  have hself : unsignedMin a.bw (-1) (-1) = -1 := ite_self _
  have hmin := minElement_pair m p
  have hmax := minElement_pair n q
  unfold UMin at hneg
  rw [hself, show Ult = fun this other k => relation this other k getUnsignedMin getUnsignedMax
      (fun _ b c _ => b < c) (fun a _ _ d => d ≤ a) from rfl,
    extremum_of_hull hra hrb ⟨hmeq, hneq, hall⟩ hhb,
    if_neg (by rw [decide_eq_true_eq, SignMag.lt_iff]; omega),
    if_neg (by rw [decide_eq_true_eq, SignMag.le_iff]; omega)] at hneg
  exact not_holds_cut a.bw_valid (by omega) (by omega) (by omega) hneg

theorem not_UMax_holds (hwa : a.WellFormed) (hwb : b.WellFormed) (hbw : b.bw = a.bw)
    (hloss : UMaxLoss a b) :
    ¬ ∀ x ∈ a.gamma, ∀ y ∈ b.gamma, Holds (a.UMax b) a.bw (unsignedMax a.bw x y) := by
  obtain ⟨htop, hra, hrb, ⟨x0, hx0, hx0n⟩, ⟨y0, hy0, hy0n⟩, htops⟩ := hloss
  have h0 := a.bw_valid.1
  have hw : a.bw < maxDigits := by omega
  have hP := half_pos a.bw
  have hhalf := half_of_succ h0 htop
  obtain ⟨m, n, hma⟩ := exists_unsignedHull hw (Or.inl hra) hwa
  obtain ⟨p, q, hmb⟩ := exists_unsignedHull (hbw ▸ hw) (Or.inl hrb) hwb
  have hhb := hmb.hull
  rw [hbw] at hhb
  have hone : (-1 : Int) % 2 ^ a.bw = 2 * half a.bw - 1 := by
    rw [emod_of_neg h0 (by omega) (by omega)]
    omega
  have hzero : (0 : Int) % 2 ^ a.bw = 0 := Int.zero_emod _
  have hx0r := hx0.1
  have hy0r := hy0.1
  rw [hbw] at hy0r
  have hx0e : x0 % 2 ^ a.bw = x0 := emod_of_nonneg h0 hx0n (by omega)
  have hy0e : y0 % 2 ^ a.bw = y0 := emod_of_nonneg h0 hy0n (by omega)
  obtain ⟨hmeq, hneq, hm0, hn2, hall⟩ := hma
  obtain ⟨-, -, hp0, hq2, -⟩ := hmb
  rw [hbw] at hq2
  have hallb := hhb.2.2
  beta_reduce at hallb
  have hax0 := hall _ hx0
  have hby0 := hallb _ hy0
  -- neither operand is decided to be the greater
  have hopen : m.val ≤ q.val ∧ p.val < n.val ∧ max n.val q.val = 2 * half a.bw - 1 := by
    rcases htops with hna | ⟨hnb, x1, hx1, hx1p⟩
    · have hz := hall _ (zero_mem_of_crossing hra hna (by omega) hx0 hx0n).2
      have hn := hall _ hna
      omega
    · have hz := hallb _ (zero_mem_of_crossing hrb hnb (by omega) hy0 hy0n).2
      have hq := hallb _ hnb
      have hx1r := hx1.1
      have hx1e := hall _ hx1
      rw [emod_of_nonneg h0 hx1p.le (by omega)] at hx1e
      omega
  intro h
  have hneg : Holds (a.UMax b) a.bw (-1) := by
    rcases htops with hna | ⟨hnb, -⟩
    · have := h _ hna _ hy0
      rwa [unsignedMax, if_pos (by omega)] at this
    · have := h _ hx0 _ hnb
      rwa [unsignedMax, if_neg (by omega)] at this
  have hmin := maxElement_pair m p
  have hmax := maxElement_pair n q
  unfold UMax at hneg
  rw [show Ugt = fun this other k => relation this other k getUnsignedMin getUnsignedMax
      (fun a _ _ d => a > d) (fun _ b c _ => c ≥ b) from rfl,
    extremum_of_hull hra hrb ⟨hmeq, hneq, hall⟩ hhb,
    if_neg (by rw [decide_eq_true_eq, gt_iff_lt, SignMag.lt_iff]; omega),
    if_neg (by rw [decide_eq_true_eq, ge_iff_le, SignMag.le_iff]; omega)] at hneg
  exact not_holds_cut a.bw_valid (by omega) (by omega) (by omega) hneg

end Extremum

/-! ## All comparisons -/

/-- A comparison returns a range with the encoding of every truth value, at
    every width of the result. -/
def ComparisonSound (op : Range → Range → Nat → Except Error Range) (P : Int → Int → Prop)
    [DecidableRel P] (a b : Range) : Prop :=
  ∀ k, 0 < k ∧ k ≤ maxDigits → ∀ x ∈ a.gamma, ∀ y ∈ b.gamma,
    Holds (op a b k) k (truth k (P x y))

/-- `Eq` and `Ne`, which do not throw, and the comparisons and extrema in signed
    order. -/
def SignedOrderSound (a b : Range) : Prop :=
  ComparisonSound Eq (· = ·) a b ∧ ComparisonSound Ne (· ≠ ·) a b ∧
  (∀ k, 0 < k ∧ k ≤ maxDigits → (∃ r, a.Eq b k = .ok r) ∧ ∃ r, a.Ne b k = .ok r) ∧
  ComparisonSound Slt (· < ·) a b ∧ ComparisonSound Sle (· ≤ ·) a b ∧
  ComparisonSound Sgt (· > ·) a b ∧ ComparisonSound Sge (· ≥ ·) a b ∧
  ∀ x ∈ a.gamma, ∀ y ∈ b.gamma,
    Holds (a.SMin b) a.bw (min x y) ∧ Holds (a.SMax b) a.bw (max x y)

def UnsignedOrderSound (a b : Range) : Prop :=
  ComparisonSound Ult (fun x y => x % 2 ^ a.bw < y % 2 ^ a.bw) a b ∧
  ComparisonSound Ule (fun x y => x % 2 ^ a.bw ≤ y % 2 ^ a.bw) a b ∧
  ComparisonSound Ugt (fun x y => x % 2 ^ a.bw > y % 2 ^ a.bw) a b ∧
  ComparisonSound Uge (fun x y => x % 2 ^ a.bw ≥ y % 2 ^ a.bw) a b

def UnsignedExtremaSound (a b : Range) : Prop :=
  ∀ x ∈ a.gamma, ∀ y ∈ b.gamma, Holds (a.UMin b) a.bw (unsignedMin a.bw x y) ∧
    Holds (a.UMax b) a.bw (unsignedMax a.bw x y)

section All

variable {a b : Range}

theorem signedOrderSound (hwa : a.WellFormed) (hwb : b.WellFormed) (hbw : b.bw = a.bw) :
    SignedOrderSound a b := by
  have h0 : (0 : APInt).val = 0 := SignMag.val_zero
  have h1 := one_val
  refine ⟨fun k hk x hx y hy => Eq_holds hwa hwb hbw hk hx hy,
    fun k hk x hx y hy => Ne_holds hwa hwb hbw hk hx hy, fun k hk => ⟨?_, ?_⟩, ?_, ?_, ?_, ?_,
    fun x hx y hy => ⟨SMin_holds hwa hwb hbw hx hy, SMax_holds hwa hwb hbw hx hy⟩⟩
  · exact equality_ok hwa hwb hbw hk (by omega) (by omega)
  · exact equality_ok hwa hwb hbw hk (by omega) (by omega)
  all_goals intro k hk x hx y hy
  · exact relation_holds id hk decides_lt (hull_signed · hwa) (hull_signed · hwb) hx hy
  · exact relation_holds id hk decides_le (hull_signed · hwa) (hull_signed · hwb) hx hy
  · exact relation_holds id hk decides_gt (hull_signed · hwa) (hull_signed · hwb) hx hy
  · exact relation_holds id hk decides_ge (hull_signed · hwa) (hull_signed · hwb) hx hy

theorem unsignedOrderSound (hwa : a.WellFormed) (hwb : b.WellFormed) (hbw : b.bw = a.bw)
    (hw : a.bw < maxDigits) : UnsignedOrderSound a b := by
  have hha := fun h : a.Proper => hull_unsigned hw h hwa
  have hhb := fun h : b.Proper => hull_unsigned (hbw ▸ hw) h hwb
  rw [hbw] at hhb
  refine ⟨?_, ?_, ?_, ?_⟩ <;> intro k hk x hx y hy
  · exact relation_holds (· % 2 ^ a.bw) hk decides_lt hha hhb hx hy
  · exact relation_holds (· % 2 ^ a.bw) hk decides_le hha hhb hx hy
  · exact relation_holds (· % 2 ^ a.bw) hk decides_gt hha hhb hx hy
  · exact relation_holds (· % 2 ^ a.bw) hk decides_ge hha hhb hx hy

theorem unsignedExtremaSound_iff (hwa : a.WellFormed) (hwb : b.WellFormed) (hbw : b.bw = a.bw)
    (hw : a.bw < maxDigits) : UnsignedExtremaSound a b ↔ ¬ UMinLoss a b ∧ ¬ UMaxLoss a b := by
  constructor
  · refine fun h => ⟨fun hl => ?_, fun hl => ?_⟩
    · exact not_UMin_holds hwa hwb hbw hl fun x hx y hy => (h x hx y hy).1
    · exact not_UMax_holds hwa hwb hbw hl fun x hx y hy => (h x hx y hy).2
  · rintro ⟨hmin, hmax⟩ x hx y hy
    exact ⟨UMin_holds hwa hwb hbw hw hmin hx hy, UMax_holds hwa hwb hbw hw hmax hx hy⟩

/-- Minus one and one at the capacity, whose unsigned order is reversed. -/
def lostOrder : {p : Range × Range // p.1.WellFormed ∧ p.2.WellFormed ∧
    (-1 : Int) ∈ p.1.gamma ∧ (1 : Int) ∈ p.2.gamma ∧
    ¬ Holds (Ult p.1 p.2 1) 1 (truth 1 (-1 % 2 ^ maxDigits < (1 : Int) % 2 ^ maxDigits)) ∧
    ¬ Holds (p.1.UMin p.2) maxDigits (unsignedMin maxDigits (-1) 1)} :=
  ⟨(⟨-1, -1, maxDigits, .regular, bwValid_maxDigits⟩, ⟨1, 1, maxDigits, .regular, bwValid_maxDigits⟩),
    by decide +kernel⟩

/-- At the capacity minus one reads as less than one. -/
theorem not_unsignedOrderSound_capacity :
    ¬ UnsignedOrderSound ⟨-1, -1, maxDigits, .regular, by decide⟩
      ⟨1, 1, maxDigits, .regular, by decide⟩ := by
  intro h
  obtain ⟨-, -, hx, hy, hlost, -⟩ := lostOrder.property
  exact hlost (h.1 1 (by decide) (-1) hx 1 hy)

theorem not_unsignedExtremaSound_capacity :
    ¬ UnsignedExtremaSound ⟨-1, -1, maxDigits, .regular, by decide⟩
      ⟨1, 1, maxDigits, .regular, by decide⟩ := by
  intro h
  obtain ⟨-, -, hx, hy, -, hlost⟩ := lostOrder.property
  exact hlost (h (-1) hx 1 hy).1

/-- Comparisons and extrema in signed order are right at every width.  Those in
    unsigned order are right below the capacity, but for the extrema one bit
    below it whose upper bound is `Max`. -/
theorem comparison_sound_iff (w : Nat) (hw : w ≤ maxDigits) :
    (∀ a b : Range, a.WellFormed → b.WellFormed → a.bw = w → b.bw = w → SignedOrderSound a b) ∧
    ((∀ a b : Range, a.WellFormed → b.WellFormed → a.bw = w → b.bw = w →
      UnsignedOrderSound a b) ↔ w < maxDigits) ∧
    ((∀ a b : Range, a.WellFormed → b.WellFormed → a.bw = w → b.bw = w →
      (UnsignedExtremaSound a b ↔ ¬ UMinLoss a b ∧ ¬ UMaxLoss a b)) ↔ w < maxDigits) := by
  refine ⟨?_, ⟨fun h => ?_, ?_⟩, fun h => ?_, ?_⟩
  · rintro a b hwa hwb rfl hbw
    exact signedOrderSound hwa hwb hbw
  · rcases Nat.lt_or_eq_of_le hw with hlt | rfl
    · exact hlt
    · exact absurd (h _ _ lostOrder.property.1 lostOrder.property.2.1 (Eq.refl maxDigits)
        (Eq.refl maxDigits)) not_unsignedOrderSound_capacity
  · rintro hlt a b hwa hwb rfl hbw
    exact unsignedOrderSound hwa hwb hbw hlt
  · rcases Nat.lt_or_eq_of_le hw with hlt | rfl
    · exact hlt
    · have hiff := h ⟨-1, -1, maxDigits, .regular, by decide⟩
        ⟨1, 1, maxDigits, .regular, by decide⟩ lostOrder.property.1 lostOrder.property.2.1
        (Eq.refl maxDigits) (Eq.refl maxDigits)
      exact absurd (hiff.mpr ⟨fun hl => absurd hl.1 (by decide), fun hl => absurd hl.1 (by decide)⟩)
        not_unsignedExtremaSound_capacity
  · rintro hlt a b hwa hwb rfl hbw
    exact unsignedExtremaSound_iff hwa hwb hbw hlt

theorem comparison_sound_iff_at_eight :
    (∀ a b : Range, a.WellFormed → b.WellFormed → a.bw = 8 → b.bw = 8 → SignedOrderSound a b) ∧
    ((∀ a b : Range, a.WellFormed → b.WellFormed → a.bw = 8 → b.bw = 8 →
      UnsignedOrderSound a b) ↔ 8 < maxDigits) ∧
    ((∀ a b : Range, a.WellFormed → b.WellFormed → a.bw = 8 → b.bw = 8 →
      (UnsignedExtremaSound a b ↔ ¬ UMinLoss a b ∧ ¬ UMaxLoss a b)) ↔ 8 < maxDigits) :=
  comparison_sound_iff 8 (by decide)

theorem comparison_not_sound :
    ¬ ∀ a b : Range, a.WellFormed → b.WellFormed → b.bw = a.bw →
      SignedOrderSound a b ∧ UnsignedOrderSound a b ∧ UnsignedExtremaSound a b := fun h =>
  not_unsignedOrderSound_capacity (h ⟨-1, -1, maxDigits, .regular, by decide⟩
    ⟨1, 1, maxDigits, .regular, by decide⟩ lostOrder.property.1 lostOrder.property.2.1
    (Eq.refl maxDigits)).2.1

end All

end Range
end Bambu
