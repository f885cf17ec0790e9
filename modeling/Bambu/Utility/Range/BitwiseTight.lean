/-
  Bambu.Utility.Range.BitwiseTight

  The bounds of `OR`, `AND` and `uXOR` are the least and the greatest result over a box of signed
  values.

  They enclose the results by `Bambu.Utility.Range.Bitwise`; here each is one of them.  Only at the
  capacity, where `Min` less its own bit is dropped, the upper bound may be none.
-/

import Bambu.Utility.Range.Bitwise

namespace Bambu
namespace Range

open Bambu.Math APInt

/-- The results of an operation over a box. -/
def results (op : Int → Int → Int) (a b c d : APInt) : Set Int :=
  Set.image2 op (Set.Icc a.val b.val) (Set.Icc c.val d.val)

/-- The least and the greatest result. -/
def Tight (op : Int → Int → Int) (a b c d : APInt) (res : APInt × APInt) : Prop :=
  IsLeast (results op a b c d) res.1.val ∧ IsGreatest (results op a b c d) res.2.val

/-- Two intervals of signed values. -/
structure Box (w : Nat) (a b c d : APInt) : Prop where
  lower : -half w ≤ a.val
  ordered : a.val ≤ b.val
  upper : b.val < half w
  lower' : -half w ≤ c.val
  ordered' : c.val ≤ d.val
  upper' : d.val < half w

/-- One operand is the constant `Min` of the capacity, and the other one reaches up to neither zero
nor minus one. -/
def CutAtCapacity (w : Nat) (b d : APInt) : Prop :=
  w = maxDigits ∧ ((b.val = -half w ∧ d.val ≠ 0 ∧ d.val ≠ -1) ∨
    (d.val = -half w ∧ b.val ≠ 0 ∧ b.val ≠ -1))

/-- Two negative upper bounds, one of them `Min`: there `maxOR` loses the other one. -/
def ORCut (w : Nat) (b d : APInt) : Prop :=
  w = maxDigits ∧ b.val < 0 ∧ d.val < 0 ∧ (b.val = -half w ∨ d.val = -half w)

/-- `Min` next to a nonnegative upper bound: there `maxAND` loses the `Min`. -/
def ANDCut (w : Nat) (b d : APInt) : Prop := w = maxDigits ∧ b.val = -half w ∧ 0 ≤ d.val

section Results

variable {op : Int → Int → Int} {w : Nat} {a b c d a' b' c' d' : APInt} {x y : Int}

theorem mem_results (hax : a.val ≤ x) (hxb : x ≤ b.val) (hcy : c.val ≤ y) (hyd : y ≤ d.val) :
    op x y ∈ results op a b c d :=
  Set.mem_image2_of_mem ⟨hax, hxb⟩ ⟨hcy, hyd⟩

theorem results_mono (ha : a.val ≤ a'.val) (hb : b'.val ≤ b.val) (hc : c.val ≤ c'.val)
    (hd : d'.val ≤ d.val) : results op a' b' c' d' ⊆ results op a b c d :=
  Set.image2_subset (Set.Icc_subset_Icc ha hb) (Set.Icc_subset_Icc hc hd)

theorem Box.operand (h : Box w a b c d) (hax : a.val ≤ x) (hxb : x ≤ b.val) :
    Operand w a.val b.val x where
  shape := Or.inr ⟨h.lower, h.upper⟩
  lower_le := hax
  le_upper := hxb
  mem := ⟨h.lower.trans hax, lt_of_le_of_lt hxb h.upper⟩

theorem Box.swap (h : Box w a b c d) : Box w c d a b :=
  ⟨h.lower', h.ordered', h.upper', h.lower, h.ordered, h.upper⟩

/-- On signed values the operation on words is the one on integers. -/
theorem Box.tight_congr (h : Box w a b c d) (op : Int → Int → Int) {bits : Int → Int → Int}
    (heq : ∀ x ∈ signedRange w, ∀ y ∈ signedRange w, bits x y = op x y) (res : APInt × APInt) :
    Tight bits a b c d res ↔ Tight op a b c d res := by
  have hresults : results bits a b c d = results op a b c d := by
    refine Set.image2_congr fun x hx y hy => ?_
    exact heq x (h.operand hx.1 hx.2).mem y (h.swap.operand hy.1 hy.2).mem
  rw [Tight, Tight, hresults]

theorem orBits_eq {x y : Int} (hw : 0 < w) (hx : x ∈ signedRange w) (hy : y ∈ signedRange w) :
    orBits w x y = Int.lor x y := by
  rw [orBits, ofInt_lor, toInt_ofInt_mem hw (lor_mem hx hy)]

theorem andBits_eq {x y : Int} (hw : 0 < w) (hx : x ∈ signedRange w) (hy : y ∈ signedRange w) :
    andBits w x y = Int.land x y := by
  rw [andBits, ofInt_land, toInt_ofInt_mem hw (land_mem hx hy)]

theorem xorBits_eq {x y : Int} (hw : 0 < w) (hx : x ∈ signedRange w) (hy : y ∈ signedRange w) :
    xorBits w x y = Int.xor x y := by
  rw [xorBits, ofInt_xor, toInt_ofInt_mem hw (xor_mem hx hy)]

/-- Bounds that enclose all results, the lower one attained: they are tight when the upper one is
attained. -/
theorem tight_iff {res : APInt × APInt} (hmem : res.1.val ∈ results op a b c d)
    (h : ∀ x, a.val ≤ x → x ≤ b.val → ∀ y, c.val ≤ y → y ≤ d.val →
      res.1.val ≤ op x y ∧ op x y ≤ res.2.val) :
    Tight op a b c d res ↔ res.2.val ∈ results op a b c d := by
  constructor
  · exact fun ht => ht.2.1
  · intro hmem'
    refine ⟨⟨hmem, ?_⟩, hmem', ?_⟩
    · rintro z ⟨x, hx, y, hy, rfl⟩
      exact (h x hx.1 hx.2 y hy.1 hy.2).1
    · rintro z ⟨x, hx, y, hy, rfl⟩
      exact (h x hx.1 hx.2 y hy.1 hy.2).2

end Results

section Attained

variable {w : Nat} {a b c d : APInt}

theorem Box.smalls (h : Box w a b c d) (hw : w ≤ maxDigits) : Small a ∧ Small b := by
  have hle := half_le_half hw
  have h1 := h.lower
  have h2 := h.ordered
  have h3 := h.upper
  exact ⟨⟨by omega, by omega⟩, by omega, by omega⟩

theorem minOR_mem (hw : 0 < w ∧ w ≤ maxDigits) (ha : Small a) (hb : Small b) (hc : Small c)
    (hd : Small d) (hab : a.val ≤ b.val) (hcd : c.val ≤ d.val) :
    (minOR w a b c d).val ∈ results Int.lor a b c d := by
  obtain ⟨x, hx, y, hy, heq⟩ := minOr_attained hab hcd w
  rw [minOR_val hw ha hb hc hd, heq]
  exact Set.mem_image2_of_mem hx hy

theorem maxOR_mem (hw : 0 < w ∧ w ≤ maxDigits) (ha : Small a) (hb : Small b) (hc : Small c)
    (hd : Small d) (hab : a.val ≤ b.val) (hcd : c.val ≤ d.val)
    (hne : w < maxDigits ∨ (b.val < 0 → d.val < 0 →
      -half maxDigits < b.val ∧ -half maxDigits < d.val)) :
    (maxOR w a b c d).val ∈ results Int.lor a b c d := by
  obtain ⟨x, hx, y, hy, heq⟩ := maxOr_attained hab hcd w
  rw [maxOR_val hw ha hb hc hd hne, heq]
  exact Set.mem_image2_of_mem hx hy

theorem minAND_mem (hw : 0 < w ∧ w ≤ maxDigits) (ha : Small a) (hb : Small b) (hc : Small c)
    (hd : Small d) (hab : a.val ≤ b.val) (hcd : c.val ≤ d.val) :
    (minAND w a b c d).val ∈ results Int.land a b c d := by
  obtain ⟨x, hx, y, hy, heq⟩ := minAnd_attained hab hcd w
  rw [minAND_val hw ha hb hc hd, heq]
  exact Set.mem_image2_of_mem hx hy

theorem maxAND_mem (hw : 0 < w ∧ w ≤ maxDigits) (ha : Small a) (hb : Small b) (hc : Small c)
    (hd : Small d) (hab : a.val ≤ b.val) (hcd : c.val ≤ d.val)
    (hne : w < maxDigits ∨ ((b.val < 0 → 0 ≤ d.val → -half maxDigits < b.val) ∧
      (d.val < 0 → 0 ≤ b.val → -half maxDigits < d.val))) :
    (maxAND w a b c d).val ∈ results Int.land a b c d := by
  obtain ⟨x, hx, y, hy, heq⟩ := maxAnd_attained hab hcd w
  rw [maxAND_val hw ha hb hc hd hne, heq]
  exact Set.mem_image2_of_mem hx hy

/-- The lower bound of `OR` is a result, and so is the upper one, unless it is cut. -/
theorem OR_attained (hw : 0 < w ∧ w ≤ maxDigits) (h : Box w a b c d) :
    ∃ res, OR w a b c d = .ok res ∧ res.1.val ∈ results Int.lor a b c d ∧
      (¬ ORCut w b d → res.2.val ∈ results Int.lor a b c d) ∧
      (ORCut w b d → res.2.val = -1) := by
  obtain ⟨hsa, hsb⟩ := h.smalls hw.2
  obtain ⟨hsc, hsd⟩ := h.swap.smalls hw.2
  have hab := h.ordered
  have hcd := h.ordered'
  have hz : (0 : APInt).val = 0 := SignMag.val_zero
  have hmone : (-1 : APInt).val = -1 := neg_one_val
  unfold OR
  rcases signs_cases hab hcd with
    ⟨hs, hab0, hcd0⟩ | ⟨hs, hb0, hc0, hd0⟩ | ⟨hs, ha0, hb0, hd0⟩ | ⟨hs, ha0, hb0, hc0, hd0⟩ |
    ⟨hs, ha0, hb0, hc0⟩ | ⟨hs, ha0, hc0, hd0⟩
  · have hmin := minOR_mem hw hsa hsb hsc hsd hab hcd
    have hmax : ¬ ORCut w b d → (maxOR w a b c d).val ∈ results Int.lor a b c d := by
      intro hcut
      refine maxOR_mem hw hsa hsb hsc hsd hab hcd ?_
      by_contra hne
      have hb1 := hsb.1
      have hd1 := hsd.1
      have hwm : w = maxDigits := by omega
      subst hwm
      exact hcut ⟨rfl, by omega, by omega, by omega⟩
    have hval : ORCut w b d → (maxOR w a b c d).val = -1 := by
      rintro ⟨rfl, hb0, hd0, hmin⟩
      exact maxOR_min hsa hsb hsd hab hcd hb0 hd0 hmin
    rcases hs with hs | hs | hs | hs <;> rw [hs] <;> exact ⟨_, rfl, hmin, hmax, hval⟩
  · -- `y` may be zero or minus one
    rw [hs]
    refine ⟨_, rfl, ?_, fun _ => ?_, fun hcut => absurd hcut.2.2.1 (not_lt.mpr hd0)⟩
    · have hmem : Int.lor a.val 0 ∈ results Int.lor a b c d :=
        mem_results (le_refl _) hab hc0.le hd0
      rwa [lor_comm, zero_lor] at hmem
    · have hmem : Int.lor a.val (-1) ∈ results Int.lor a b c d :=
        mem_results (le_refl _) hab (by omega) (by omega)
      rwa [lor_comm, neg_one_lor, ← hmone] at hmem
  · rw [hs]
    refine ⟨_, rfl, ?_, fun _ => ?_, fun hcut => absurd hcut.2.1 (not_lt.mpr hb0)⟩
    · have hmem : Int.lor 0 c.val ∈ results Int.lor a b c d :=
        mem_results ha0.le hb0 (le_refl _) hcd
      rwa [zero_lor] at hmem
    · have hmem : Int.lor (-1) c.val ∈ results Int.lor a b c d :=
        mem_results (by omega) (by omega) (le_refl _) hcd
      rwa [neg_one_lor, ← hmone] at hmem
  · rw [hs]
    refine ⟨_, rfl, ?_, fun _ => ?_, fun hcut => absurd hcut.2.1 (not_lt.mpr hb0)⟩
    · rw [SignMag.val_min]
      rcases Int.le_total a.val c.val with hle | hle
      · have hmem : Int.lor a.val 0 ∈ results Int.lor a b c d :=
          mem_results (le_refl _) hab hc0.le hd0
        rwa [lor_comm, zero_lor, ← min_eq_left hle] at hmem
      · have hmem : Int.lor 0 c.val ∈ results Int.lor a b c d :=
          mem_results ha0.le hb0 (le_refl _) hcd
        rwa [zero_lor, ← min_eq_right hle] at hmem
    · exact results_mono (by omega) (le_refl _) (by omega) (le_refl _)
        (maxOR_mem hw small_zero hsb small_zero hsd (by omega) (by omega) (Or.inr (by omega)))
  · rw [hs]
    refine ⟨_, rfl, ?_, fun _ => ?_, fun hcut => absurd hcut.2.1 (not_lt.mpr hb0)⟩
    · exact results_mono (le_refl _) (by omega) (le_refl _) (le_refl _)
        (minOR_mem hw hsa small_neg_one hsc hsd (by omega) hcd)
    · exact results_mono (by omega) (le_refl _) (le_refl _) (le_refl _)
        (maxOR_mem hw small_zero hsb hsc hsd (by omega) hcd (Or.inr (by omega)))
  · rw [hs]
    refine ⟨_, rfl, ?_, fun _ => ?_, fun hcut => absurd hcut.2.2.1 (not_lt.mpr hd0)⟩
    · exact results_mono (le_refl _) (le_refl _) (le_refl _) (by omega)
        (minOR_mem hw hsa hsb hsc small_neg_one hab (by omega))
    · exact results_mono (le_refl _) (le_refl _) (by omega) (le_refl _)
        (maxOR_mem hw hsa hsb small_zero hsd hab (by omega) (Or.inr (by omega)))

/-- Where `maxAND` is not cut it is attained. -/
theorem maxAND_mem_of_not_cut (hw : 0 < w ∧ w ≤ maxDigits) (ha : Small a) (hb : Small b)
    (hc : Small c) (hd : Small d) (hab : a.val ≤ b.val) (hcd : c.val ≤ d.val)
    (hcut : ¬ ANDCut w b d) (hcut' : ¬ ANDCut w d b) :
    (maxAND w a b c d).val ∈ results Int.land a b c d := by
  refine maxAND_mem hw ha hb hc hd hab hcd ?_
  by_contra hne
  have hb1 := hb.1
  have hd1 := hd.1
  have hwm : w = maxDigits := by omega
  subst hwm
  by_cases hb0 : b.val < 0
  · exact hcut ⟨rfl, by omega, by omega⟩
  · exact hcut' ⟨rfl, by omega, by omega⟩

theorem ANDCut.maxAND_val (h : ANDCut w b d) (hab : a.val ≤ b.val) (hd : Small d) :
    (maxAND w a b c d).val = d.val := by
  obtain ⟨rfl, hb, hd0⟩ := h
  exact maxAND_min hd hab hd0 hb

theorem ANDCut.maxAND_val' (h : ANDCut w d b) (hcd : c.val ≤ d.val) (hb : Small b) :
    (maxAND w a b c d).val = b.val := by
  obtain ⟨rfl, hd, hb0⟩ := h
  exact maxAND_min' hb hcd hb0 hd

/-- The lower bound of `AND` is a result, and so is the upper one, unless it is cut. -/
theorem AND_attained (hw : 0 < w ∧ w ≤ maxDigits) (h : Box w a b c d) :
    ∃ res, AND w a b c d = .ok res ∧ res.1.val ∈ results Int.land a b c d ∧
      (¬ ANDCut w b d → ¬ ANDCut w d b → res.2.val ∈ results Int.land a b c d) ∧
      (ANDCut w b d → res.2.val = d.val) ∧ (ANDCut w d b → res.2.val = b.val) := by
  obtain ⟨hsa, hsb⟩ := h.smalls hw.2
  obtain ⟨hsc, hsd⟩ := h.swap.smalls hw.2
  have hab := h.ordered
  have hcd := h.ordered'
  have hP := half_pos w
  have hz : (0 : APInt).val = 0 := SignMag.val_zero
  have hmone : (-1 : APInt).val = -1 := neg_one_val
  have hnot : ∀ {p q : APInt}, 0 ≤ p.val → ¬ ANDCut w p q := by
    rintro p q hp ⟨-, hmin, -⟩
    omega
  unfold AND
  rcases signs_cases hab hcd with
    ⟨hs, hab0, hcd0⟩ | ⟨hs, hb0, hc0, hd0⟩ | ⟨hs, ha0, hb0, hd0⟩ | ⟨hs, ha0, hb0, hc0, hd0⟩ |
    ⟨hs, ha0, hb0, hc0⟩ | ⟨hs, ha0, hc0, hd0⟩
  · have hmin := minAND_mem hw hsa hsb hsc hsd hab hcd
    have hmax := maxAND_mem_of_not_cut hw hsa hsb hsc hsd hab hcd
    have hcut : ANDCut w b d → (maxAND w a b c d).val = d.val := fun hc => hc.maxAND_val hab hsd
    have hcut' : ANDCut w d b → (maxAND w a b c d).val = b.val := fun hc => hc.maxAND_val' hcd hsb
    rcases hs with hs | hs | hs | hs <;> rw [hs] <;> exact ⟨_, rfl, hmin, hmax, hcut, hcut'⟩
  · -- the greatest conjunction has a nonnegative `y`
    rw [hs]
    refine ⟨_, rfl, ?_, fun hcut hcut' => ?_, fun hcut => hcut.maxAND_val hab hsd,
      fun hcut => absurd hcut (hnot hd0)⟩
    · exact results_mono (le_refl _) (le_refl _) (le_refl _) (by omega)
        (minAND_mem hw hsa hsb hsc small_neg_one hab (by omega))
    · exact results_mono (le_refl _) (le_refl _) (by omega) (le_refl _)
        (maxAND_mem_of_not_cut hw hsa hsb small_zero hsd hab (by omega) hcut hcut')
  · rw [hs]
    refine ⟨_, rfl, ?_, fun hcut hcut' => ?_, fun hcut => absurd hcut (hnot hb0),
      fun hcut => hcut.maxAND_val' hcd hsb⟩
    · exact results_mono (le_refl _) (by omega) (le_refl _) (le_refl _)
        (minAND_mem hw hsa small_neg_one hsc hsd (by omega) hcd)
    · exact results_mono (by omega) (le_refl _) (le_refl _) (le_refl _)
        (maxAND_mem_of_not_cut hw small_zero hsb hsc hsd (by omega) hcd hcut hcut')
  · rw [hs]
    refine ⟨_, rfl, ?_, fun _ _ => ?_, fun hcut => absurd hcut (hnot hb0),
      fun hcut => absurd hcut (hnot hd0)⟩
    · exact results_mono (le_refl _) (by omega) (le_refl _) (by omega)
        (minAND_mem hw hsa small_neg_one hsc small_neg_one (by omega) (by omega))
    · rw [SignMag.val_max]
      rcases Int.le_total d.val b.val with hle | hle
      · have hmem : Int.land b.val (-1) ∈ results Int.land a b c d :=
          mem_results hab (le_refl _) (by omega) (by omega)
        rwa [land_neg_one, ← max_eq_left hle] at hmem
      · have hmem : Int.land (-1) d.val ∈ results Int.land a b c d :=
          mem_results (by omega) (by omega) hcd (le_refl _)
        rwa [land_comm, land_neg_one, ← max_eq_right hle] at hmem
  · -- `x` may be zero or minus one
    rw [hs]
    refine ⟨_, rfl, ?_, fun _ _ => ?_, fun hcut => absurd hcut (hnot hb0),
      fun hcut => absurd hcut (hnot (hc0.trans hcd))⟩
    · have hmem : Int.land 0 c.val ∈ results Int.land a b c d :=
        mem_results ha0.le hb0 (le_refl _) hcd
      rwa [zero_land, ← hz] at hmem
    · have hmem : Int.land (-1) d.val ∈ results Int.land a b c d :=
        mem_results (by omega) (by omega) hcd (le_refl _)
      rwa [land_comm, land_neg_one] at hmem
  · rw [hs]
    refine ⟨_, rfl, ?_, fun _ _ => ?_, fun hcut => absurd hcut (hnot (ha0.trans hab)),
      fun hcut => absurd hcut (hnot hd0)⟩
    · have hmem : Int.land a.val 0 ∈ results Int.land a b c d :=
        mem_results (le_refl _) hab hc0.le hd0
      rwa [land_comm, zero_land, ← hz] at hmem
    · have hmem : Int.land b.val (-1) ∈ results Int.land a b c d :=
        mem_results hab (le_refl _) (by omega) (by omega)
      rwa [land_neg_one] at hmem

end Attained

/-! ## Tightness -/

section Exact

variable {w : Nat} {a b c d : APInt} {x y : Int}

theorem lor_min (n : Nat) (hy : -2 ^ n ≤ y) (hy0 : y < 0) : Int.lor (-2 ^ n) y = y := by
  obtain ⟨u, rfl⟩ := Int.eq_negSucc_of_lt_zero hy0
  have hpos := Nat.two_pow_pos n
  have hneg : (-2 ^ n : Int) = Int.negSucc (2 ^ n - 1) := by
    rw [Int.negSucc_eq]
    push_cast [hpos]
    omega
  have hu : u < 2 ^ n := by
    rw [Int.negSucc_eq] at hy
    have hcast : ((2 ^ n : Nat) : Int) = 2 ^ n := by push_cast; rfl
    omega
  rw [hneg]
  show Int.negSucc ((2 ^ n - 1) &&& u) = Int.negSucc u
  rw [Nat.and_comm, Nat.and_two_pow_sub_one_eq_mod, Nat.mod_eq_of_lt hu]

theorem land_min_nonpos (n : Nat) (hy : y < 2 ^ n) : Int.land (-2 ^ n) y ≤ 0 := by
  have hpos : (0 : Int) < 2 ^ n := by positivity
  rw [land_comm, land_neg_two_pow]
  have hquot : y / 2 ^ n ≤ 0 := by
    have hlt := (Int.ediv_lt_iff_lt_mul hpos).mpr (show y < 1 * 2 ^ n by omega)
    omega
  exact mul_nonpos_of_nonpos_of_nonneg hquot hpos.le

/-- The bounds of `OR` enclose the disjunctions of a box. -/
theorem Box.OR_bounds (h : Box w a b c d) (hw : 0 < w ∧ w ≤ maxDigits) {res : APInt × APInt}
    (hres : OR w a b c d = .ok res) (x : Int) (hax : a.val ≤ x) (hxb : x ≤ b.val) (y : Int)
    (hcy : c.val ≤ y) (hyd : y ≤ d.val) :
    res.1.val ≤ Int.lor x y ∧ Int.lor x y ≤ res.2.val := by
  obtain ⟨res', hres', -, hle, hge, -⟩ := OR_encloses hw (h.operand hax hxb)
    (h.swap.operand hcy hyd)
  obtain rfl : res = res' := Except.ok.inj (hres.symm.trans hres')
  exact ⟨hle, hge⟩

theorem Box.AND_bounds (h : Box w a b c d) (hw : 0 < w ∧ w ≤ maxDigits) {res : APInt × APInt}
    (hres : AND w a b c d = .ok res) (x : Int) (hax : a.val ≤ x) (hxb : x ≤ b.val) (y : Int)
    (hcy : c.val ≤ y) (hyd : y ≤ d.val) :
    res.1.val ≤ Int.land x y ∧ Int.land x y ≤ res.2.val := by
  obtain ⟨res', hres', -, hle, hge, -⟩ := AND_encloses hw (h.operand hax hxb)
    (h.swap.operand hcy hyd)
  obtain rfl : res = res' := Except.ok.inj (hres.symm.trans hres')
  exact ⟨hle, hge⟩

/-- Next to `Min` alone, the disjunctions with values below minus one are below minus one. -/
theorem lor_ne_neg_one (hx : x = -half w) (hy : -half w ≤ y) (hlt : y < -1) :
    Int.lor x y ≠ -1 := by
  rw [hx, half_eq_two_pow, lor_min (w - 1) hy (by omega)]
  omega

theorem Box.OR_tight_iff (h : Box w a b c d) (hw : 0 < w ∧ w ≤ maxDigits) :
    (∃ res, OR w a b c d = .ok res ∧ Tight Int.lor a b c d res) ↔
      ¬ (ORCut w b d ∧ b.val ≠ -1 ∧ d.val ≠ -1) := by
  obtain ⟨res, hres, hmem, hfree, hcut⟩ := OR_attained hw h
  have htight := tight_iff hmem (h.OR_bounds hw hres)
  have hab := h.ordered
  have hcd := h.ordered'
  have ha := h.lower
  have hc := h.lower'
  constructor
  · rintro ⟨res', hres', ht⟩ ⟨hC, hb1, hd1⟩
    obtain rfl : res = res' := Except.ok.inj (hres.symm.trans hres')
    obtain ⟨x, ⟨hax, hxb⟩, y, ⟨hcy, hyd⟩, heq⟩ := htight.mp ht
    rw [hcut hC] at heq
    obtain ⟨-, hb0, hd0, hb | hd⟩ := hC
    · exact lor_ne_neg_one (by omega) (hc.trans hcy) (by omega) heq
    · rw [lor_comm] at heq
      exact lor_ne_neg_one (by omega) (ha.trans hax) (by omega) heq
  · intro hne
    refine ⟨res, hres, htight.mpr ?_⟩
    by_cases hC : ORCut w b d
    · -- the bound minus one of the other operand is attained
      rw [hcut hC]
      by_cases hb1 : b.val = -1
      · have hr : Int.lor (-1) c.val ∈ results Int.lor a b c d :=
          mem_results (by omega) (by omega) (le_refl _) hcd
        rwa [neg_one_lor] at hr
      · have hd1 : d.val = -1 := by
          by_contra hd1
          exact hne ⟨hC, hb1, hd1⟩
        have hr : Int.lor a.val (-1) ∈ results Int.lor a b c d :=
          mem_results (le_refl _) hab (by omega) (by omega)
        rwa [lor_comm, neg_one_lor] at hr
    · exact hfree hC

theorem Box.AND_tight_iff (h : Box w a b c d) (hw : 0 < w ∧ w ≤ maxDigits) :
    (∃ res, AND w a b c d = .ok res ∧ Tight Int.land a b c d res) ↔
      ¬ (ANDCut w b d ∧ d.val ≠ 0) ∧ ¬ (ANDCut w d b ∧ b.val ≠ 0) := by
  obtain ⟨res, hres, hmem, hfree, hcut, hcut'⟩ := AND_attained hw h
  have htight := tight_iff hmem (h.AND_bounds hw hres)
  have hab := h.ordered
  have hcd := h.ordered'
  have ha := h.lower
  have hc := h.lower'
  have hb := h.upper
  have hd := h.upper'
  have hhalf := half_eq_two_pow w
  constructor
  · rintro ⟨res', hres', ht⟩
    obtain rfl : res = res' := Except.ok.inj (hres.symm.trans hres')
    obtain ⟨x, ⟨hax, hxb⟩, y, ⟨hcy, hyd⟩, heq⟩ := htight.mp ht
    constructor
    · rintro ⟨hC, hd1⟩
      have hx : x = -2 ^ (w - 1) := by
        have hmin := hC.2.1
        omega
      have hle := land_min_nonpos (w - 1) (show y < 2 ^ (w - 1) by omega)
      have hd0 := hC.2.2
      rw [hcut hC, hx] at heq
      omega
    · rintro ⟨hC, hb1⟩
      have hy : y = -2 ^ (w - 1) := by
        have hmin := hC.2.1
        omega
      have hle := land_min_nonpos (w - 1) (show x < 2 ^ (w - 1) by omega)
      have hb0 := hC.2.2
      rw [hcut' hC, land_comm, hy] at heq
      omega
  · rintro ⟨hne, hne'⟩
    refine ⟨res, hres, htight.mpr ?_⟩
    by_cases hC : ANDCut w b d
    · have hd0 : d.val = 0 := by
        by_contra hd0
        exact hne ⟨hC, hd0⟩
      have hr : Int.land a.val 0 ∈ results Int.land a b c d :=
        mem_results (le_refl _) hab (by omega) (by omega)
      rwa [hcut hC, hd0, ← zero_land a.val, land_comm]
    · by_cases hC' : ANDCut w d b
      · have hb0 : b.val = 0 := by
          by_contra hb0
          exact hne' ⟨hC', hb0⟩
        have hr : Int.land 0 c.val ∈ results Int.land a b c d :=
          mem_results (by omega) (by omega) (le_refl _) hcd
        rwa [hcut' hC', hb0, ← zero_land c.val]
      · exact hfree hC hC'

theorem Box.uXOR_tight (h : Box w a b c d) (hw : 0 < w ∧ w ≤ maxDigits) (ha : 0 ≤ a.val)
    (hc : 0 ≤ c.val) : Tight Int.xor a b c d (uXOR w a b c d) := by
  obtain ⟨hsa, hsb⟩ := h.smalls hw.2
  obtain ⟨hsc, hsd⟩ := h.swap.smalls hw.2
  have hab := h.ordered
  have hcd := h.ordered'
  have hC := half_pos maxDigits
  obtain ⟨p, hp, q, hq, hmin⟩ := minXor_attained hab hcd w
  obtain ⟨p', hp', q', hq', hmax⟩ := maxXor_attained hab hcd w
  have hl : (uXOR w a b c d).1.val = minXor b.val d.val w a.val c.val :=
    minXOR_val hw hsa hsb hsc hsd
  have hu : (uXOR w a b c d).2.val = maxXor a.val c.val w b.val d.val :=
    maxXOR_val hw hsa hsb hsc hsd (Or.inr (by omega))
  refine (tight_iff ?_ fun x hax hxb y hcy hyd => ?_).mpr ?_
  · rw [hl, hmin]
    exact Set.mem_image2_of_mem hp hq
  · obtain ⟨⟨-, hle⟩, -, hge⟩ := xor_finite hw.1 (h.operand hax hxb) (h.swap.operand hcy hyd)
      (by omega) (by omega)
    rw [hl, hu]
    exact ⟨hle, hge⟩
  · rw [hu, hmax]
    exact Set.mem_image2_of_mem hp' hq'

end Exact

/-- On the results of the operations on words, the bounds are the least and the greatest one for
every width and all signed operands, unless an upper bound is cut at the capacity. -/
theorem bounds_tight_iff (w : Nat) (hw : 0 < w ∧ w ≤ maxDigits) (a b c d : APInt)
    (h : Box w a b c d) :
    ((∃ res, OR w a b c d = .ok res ∧ Tight (orBits w) a b c d res) ∧
      (∃ res, AND w a b c d = .ok res ∧ Tight (andBits w) a b c d res) ∧
      (0 ≤ a.val → 0 ≤ c.val → Tight (xorBits w) a b c d (uXOR w a b c d))) ↔
    ¬ CutAtCapacity w b d := by
  have hor := h.tight_congr Int.lor fun x hx y hy => orBits_eq hw.1 hx hy
  have hand := h.tight_congr Int.land fun x hx y hy => andBits_eq hw.1 hx hy
  have hxor := h.tight_congr Int.xor fun x hx y hy => xorBits_eq hw.1 hx hy
  have hP := two_le_half_maxDigits
  simp only [hor, hand, hxor, h.OR_tight_iff hw, h.AND_tight_iff hw,
    and_iff_left (h.uXOR_tight hw)]
  constructor
  · rintro ⟨hne, hne', hne''⟩ ⟨rfl, ⟨hb, hd0, hd1⟩ | ⟨hd, hb0, hb1⟩⟩
    · by_cases hneg : d.val < 0
      · exact hne ⟨⟨rfl, by omega, hneg, Or.inl hb⟩, by omega, hd1⟩
      · exact hne' ⟨⟨rfl, hb, by omega⟩, hd0⟩
    · by_cases hneg : b.val < 0
      · exact hne ⟨⟨rfl, hneg, by omega, Or.inr hd⟩, hb1, by omega⟩
      · exact hne'' ⟨⟨rfl, hd, by omega⟩, hb0⟩
  · intro hcut
    refine ⟨?_, ?_, ?_⟩
    · rintro ⟨⟨rfl, hb0, hd0, hb | hd⟩, hb1, hd1⟩
      · exact hcut ⟨rfl, Or.inl ⟨hb, by omega, hd1⟩⟩
      · exact hcut ⟨rfl, Or.inr ⟨hd, by omega, hb1⟩⟩
    · rintro ⟨⟨rfl, hb, hd⟩, hd0⟩
      exact hcut ⟨rfl, Or.inl ⟨hb, hd0, by omega⟩⟩
    · rintro ⟨⟨rfl, hd, hb⟩, hb0⟩
      exact hcut ⟨rfl, Or.inr ⟨hd, hb0, by omega⟩⟩

theorem box_eight : Box 8 (-3) 5 (-2) 1 := by
  constructor <;> decide +kernel

theorem bounds_tight_iff_eight :
    ∃ res, AND 8 (-3) 5 (-2) 1 = .ok res ∧ Tight (andBits 8) (-3) 5 (-2) 1 res :=
  ((bounds_tight_iff 8 (by decide) (-3) 5 (-2) 1 box_eight).mpr
    fun h => absurd h.1 (by decide)).2.1

/-- At the capacity the conjunctions of `Min` with one are zero, and the upper bound is one. -/
theorem bounds_not_tight :
    ¬ ∃ res, AND maxDigits Min Min 1 1 = .ok res ∧ Tight (andBits maxDigits) Min Min 1 1 res := by
  have hmin := min_val
  have hone : (1 : APInt).val = 1 := one_val
  have hP := two_le_half_maxDigits
  have hbox : Box maxDigits Min Min 1 1 :=
    ⟨by omega, le_refl _, by omega, by omega, le_refl _, by omega⟩
  have hw : 0 < maxDigits ∧ maxDigits ≤ maxDigits := ⟨maxDigits_pos, le_refl _⟩
  have hand := hbox.tight_congr Int.land fun x hx y hy => andBits_eq hw.1 hx hy
  simp only [hand, hbox.AND_tight_iff hw]
  rintro ⟨hne, -⟩
  exact hne ⟨⟨rfl, hmin, by omega⟩, by omega⟩

end Range
end Bambu
