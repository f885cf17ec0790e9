/-
  Bambu.Algorithms.RangeAnalysis.ValueSet

  `ValueSetRange.cpp`: sets of intervals of a variable's domain, and the ranges that stand for
  them.

  The sets are those of `boost::icl::interval_set`, which joins intervals that touch.  They are
  a parameter here (`IntervalSets`), with what the library documents of them (`Lawful`).
  `tryGetRange` makes a range of a set only where nothing is lost: one interval becomes a
  Regular range, and one hole in the domain an Anti range (`contains_toValueRange`).
-/

import Bambu.Math.Runs
import Bambu.Utility.Range.Compare

namespace Bambu
namespace RangeAnalysis

open Bambu.Math APInt Range

/-! ## Interval sets -/

/-- An interval of a set, by its first and its last element, and whether both of its bounds are
stored as closed ones. -/
structure Interval where
  first : APInt
  last : APInt
  isClosed : Bool

/-- The operations of interval sets, and the elements of a set. -/
structure IntervalSets (S : Type) where
  values : S → Set Int
  empty : S
  closed : APInt → APInt → S
  add : S → S → S
  subtract : S → S → S
  intersect : S → S → S
  isEmpty : S → Bool
  intervals : S → List Interval
  lower : S → APInt
  upper : S → APInt

namespace IntervalSets

variable {S : Type}

def iterative_size (I : IntervalSets S) (set : S) : Nat := (I.intervals set).length

/-- What is documented of the operations: the intervals are those of the set, in ascending
order, and no two of them touch. -/
structure Lawful (I : IntervalSets S) : Prop where
  values_empty : I.values I.empty = ∅
  values_closed : ∀ lb ub, I.values (I.closed lb ub) = Set.Icc lb.val ub.val
  values_add : ∀ a b, I.values (I.add a b) = I.values a ∪ I.values b
  values_subtract : ∀ a b, I.values (I.subtract a b) = I.values a \ I.values b
  values_intersect : ∀ a b, I.values (I.intersect a b) = I.values a ∩ I.values b
  isEmpty_iff : ∀ a, I.isEmpty a = true ↔ I.values a = ∅
  mem_iff : ∀ a x, x ∈ I.values a ↔ ∃ i ∈ I.intervals a, i.first.val ≤ x ∧ x ≤ i.last.val
  first_le_last : ∀ a, ∀ i ∈ I.intervals a, i.first.val ≤ i.last.val
  apart : ∀ a, (I.intervals a).Pairwise fun i j => i.last.val + 1 < j.first.val
  lower_closed : ∀ lb ub, lb ≤ ub → I.lower (I.add I.empty (I.closed lb ub)) = lb
  upper_closed : ∀ lb ub, lb ≤ ub → I.upper (I.add I.empty (I.closed lb ub)) = ub

/-- A set without a gap has at most one interval. -/
theorem Lawful.size_le_one {I : IntervalSets S} (hI : I.Lawful) {set : S} {lo hi : Int}
    (h : I.values set = Set.Icc lo hi) : I.iterative_size set ≤ 1 := by
  have hmem := hI.mem_iff set
  have hle := hI.first_le_last set
  have happart := hI.apart set
  unfold iterative_size
  rcases hl : I.intervals set with _ | ⟨i, _ | ⟨j, rest⟩⟩
  · exact Nat.zero_le 1
  · exact le_rfl
  rw [hl] at hmem hle happart
  obtain ⟨hi_apart, -⟩ := List.pairwise_cons.mp happart
  have hi_le := hle i List.mem_cons_self
  have hj_le := hle j (List.mem_cons_of_mem _ List.mem_cons_self)
  have hij := hi_apart j List.mem_cons_self
  have h1 : i.last.val ∈ I.values set := (hmem _).mpr ⟨i, List.mem_cons_self, hi_le, le_rfl⟩
  have h2 : j.first.val ∈ I.values set :=
    (hmem _).mpr ⟨j, List.mem_cons_of_mem _ List.mem_cons_self, le_rfl, hj_le⟩
  -- The number behind the first interval is between its end and the second one.
  have hbetween : i.last.val + 1 ∈ I.values set := by
    rw [h, Set.mem_Icc] at h1 h2 ⊢
    omega
  obtain ⟨k, hk, hk1, hk2⟩ := (hmem _).mp hbetween
  rcases List.mem_cons.mp hk with rfl | hk
  · omega
  · have := hi_apart k hk
    omega

/-- A set with one gap, which is one number, has at most two intervals. -/
theorem Lawful.size_le_two {I : IntervalSets S} (hI : I.Lawful) {set : S} {lo hi c : Int}
    (h : I.values set = Set.Icc lo hi \ {c}) : I.iterative_size set ≤ 2 := by
  have hmem := hI.mem_iff set
  have hle := hI.first_le_last set
  have happart := hI.apart set
  unfold iterative_size
  rcases hl : I.intervals set with _ | ⟨i, _ | ⟨j, _ | ⟨k, rest⟩⟩⟩
  · exact Nat.zero_le 2
  · exact Nat.le_succ 1
  · exact le_rfl
  rw [hl] at hmem hle happart
  obtain ⟨hi_apart, hrest⟩ := List.pairwise_cons.mp happart
  obtain ⟨hj_apart, -⟩ := List.pairwise_cons.mp hrest
  have hj : j ∈ i :: j :: k :: rest := List.mem_cons_of_mem _ List.mem_cons_self
  have hk : k ∈ i :: j :: k :: rest := List.mem_cons_of_mem _ (List.mem_cons_of_mem _ List.mem_cons_self)
  have hi_le := hle i List.mem_cons_self
  have hj_le := hle j hj
  have hk_le := hle k hk
  have hij := hi_apart j List.mem_cons_self
  have hjk := hj_apart k List.mem_cons_self
  have h1 : i.last.val ∈ I.values set := (hmem _).mpr ⟨i, List.mem_cons_self, hi_le, le_rfl⟩
  have h2 : k.first.val ∈ I.values set := (hmem _).mpr ⟨k, hk, le_rfl, hk_le⟩
  rw [h] at h1 h2
  -- The numbers behind the first two intervals are both missing, and they differ.
  have hmissing : ∀ y, lo ≤ y → y ≤ hi → y ∉ I.values set → y = c := by
    intro y hy1 hy2 hy
    rw [h] at hy
    by_contra hne
    exact hy ⟨⟨hy1, hy2⟩, hne⟩
  have hfirst : i.last.val + 1 = c := by
    refine hmissing _ (by have := h1.1.1; omega) (by have := h2.1.2; omega) fun hin => ?_
    obtain ⟨m, hm, hm1, hm2⟩ := (hmem _).mp hin
    rcases List.mem_cons.mp hm with rfl | hm
    · omega
    · have := hi_apart m hm
      omega
  have hsecond : j.last.val + 1 = c := by
    refine hmissing _ (by have := h1.1.1; omega) (by have := h2.1.2; omega) fun hin => ?_
    obtain ⟨m, hm, hm1, hm2⟩ := (hmem _).mp hin
    rcases List.mem_cons.mp hm with rfl | hm
    · omega
    rcases List.mem_cons.mp hm with rfl | hm
    · omega
    · have := hj_apart m hm
      omega
  omega

/-- Sets as lists of their elements, whose intervals are the runs of the sorted list. -/
def list : IntervalSets (List APInt) where
  values l := {x | ∃ a ∈ l, a.val = x}
  empty := []
  closed lb ub := (List.range (ub.val - lb.val + 1).toNat).map fun i : Nat =>
    SignMag.ofInt (lb.val + i)
  add a b := a ++ b
  subtract a b := a.filter (· ∉ b)
  intersect a b := a.filter (· ∈ b)
  isEmpty a := a.isEmpty
  intervals a := (runs ((a.map SignMag.val).insertionSort (· ≤ ·))).map fun r =>
    ⟨SignMag.ofInt r.1, SignMag.ofInt r.2, true⟩
  lower a := a.headD 0
  upper a := a.getLastD 0

theorem list_values_closed (lb ub : APInt) : list.values (list.closed lb ub) = Set.Icc lb.val ub.val := by
  have hlb := APInt.bounds lb
  have hub := APInt.bounds ub
  ext x
  constructor
  · rintro ⟨a, ha, rfl⟩
    obtain ⟨i, hi, rfl⟩ := List.mem_map.mp ha
    have hlt := List.mem_range.mp hi
    rw [APInt.val_of_fits (by omega) (by omega), Set.mem_Icc]
    omega
  · rintro ⟨h1, h2⟩
    have hmem : (x - lb.val).toNat ∈ List.range (ub.val - lb.val + 1).toNat :=
      List.mem_range.mpr (by omega)
    refine ⟨_, List.mem_map_of_mem hmem, ?_⟩
    rw [APInt.val_of_fits (by omega) (by omega)]
    omega

/-- The runs of a list of big integers, and the list. -/
theorem list_runs_spec (a : List APInt) :
    (∀ x, x ∈ list.values a ↔ ∃ i ∈ list.intervals a, i.first.val ≤ x ∧ x ≤ i.last.val) ∧
      (∀ i ∈ list.intervals a, i.first.val ≤ i.last.val) ∧
      (list.intervals a).Pairwise fun i j => i.last.val + 1 < j.first.val := by
  obtain ⟨l, hl⟩ : ∃ l, l = (a.map SignMag.val).insertionSort (· ≤ ·) := ⟨_, rfl⟩
  have hsorted : l.Pairwise (· ≤ ·) := hl ▸ List.pairwise_insertionSort _ _
  have hmem : ∀ x, x ∈ list.values a ↔ x ∈ l := by
    intro x
    rw [hl, List.mem_insertionSort, List.mem_map]
    exact Iff.rfl
  obtain ⟨hruns, hle, hapart⟩ := runs_spec hsorted
  -- The ends of a run are elements, so that they fit.
  have hfit : ∀ r ∈ runs l, (SignMag.ofInt r.1 : APInt).val = r.1 ∧
      (SignMag.ofInt r.2 : APInt).val = r.2 := by
    intro r hr
    obtain ⟨b, -, hb⟩ := (hmem r.1).mpr ((hruns r.1).mpr ⟨r, hr, le_rfl, hle r hr⟩)
    obtain ⟨c, -, hc⟩ := (hmem r.2).mpr ((hruns r.2).mpr ⟨r, hr, hle r hr, le_rfl⟩)
    rw [← hb, ← hc]
    exact ⟨APInt.val_of_fits (APInt.bounds b).1 (APInt.bounds b).2,
      APInt.val_of_fits (APInt.bounds c).1 (APInt.bounds c).2⟩
  have hintervals : list.intervals a =
      (runs l).map fun r => ⟨SignMag.ofInt r.1, SignMag.ofInt r.2, true⟩ := by
    rw [hl]
    rfl
  rw [hintervals]
  refine ⟨fun x => ?_, fun i hi => ?_, ?_⟩
  · rw [hmem, hruns]
    constructor
    · rintro ⟨r, hr, h1, h2⟩
      refine ⟨_, List.mem_map_of_mem hr, ?_, ?_⟩
      · rwa [(hfit r hr).1]
      · rwa [(hfit r hr).2]
    · rintro ⟨i, hi, h1, h2⟩
      obtain ⟨r, hr, rfl⟩ := List.mem_map.mp hi
      rw [(hfit r hr).1] at h1
      rw [(hfit r hr).2] at h2
      exact ⟨r, hr, h1, h2⟩
  · obtain ⟨r, hr, rfl⟩ := List.mem_map.mp hi
    rw [(hfit r hr).1, (hfit r hr).2]
    exact hle r hr
  · rw [List.pairwise_map]
    refine hapart.imp_of_mem fun hr hs h => ?_
    rw [(hfit _ hr).2, (hfit _ hs).1]
    exact h

theorem list_lawful : list.Lawful where
  values_empty := by
    ext x
    simp [list]
  values_closed := list_values_closed
  values_add a b := by
    ext x
    simp only [list, Set.mem_ofPred_eq, List.mem_append, Set.mem_union, or_and_right, exists_or]
  values_subtract a b := by
    ext x
    simp only [list, Set.mem_ofPred_eq, List.mem_filter, decide_eq_true_eq, Set.mem_sdiff]
    constructor
    · rintro ⟨c, ⟨hc, hb⟩, rfl⟩
      exact ⟨⟨c, hc, rfl⟩, fun ⟨d, hd, h⟩ => hb (SignMag.ext h ▸ hd)⟩
    · rintro ⟨⟨c, hc, rfl⟩, hb⟩
      exact ⟨c, ⟨hc, fun h => hb ⟨c, h, rfl⟩⟩, rfl⟩
  values_intersect a b := by
    ext x
    simp only [list, Set.mem_ofPred_eq, List.mem_filter, decide_eq_true_eq, Set.mem_inter_iff]
    constructor
    · rintro ⟨c, ⟨hc, hb⟩, rfl⟩
      exact ⟨⟨c, hc, rfl⟩, ⟨c, hb, rfl⟩⟩
    · rintro ⟨⟨c, hc, rfl⟩, ⟨d, hd, h⟩⟩
      exact ⟨c, ⟨hc, SignMag.ext h ▸ hd⟩, rfl⟩
  isEmpty_iff a := by
    cases a with
    | nil => simp [list]
    | cons b rest =>
      refine iff_of_false (by simp [list]) fun h => ?_
      exact (Set.ext_iff.mp h b.val).mp ⟨b, List.mem_cons_self, rfl⟩
  mem_iff a x := (list_runs_spec a).1 x
  first_le_last a := (list_runs_spec a).2.1
  apart a := (list_runs_spec a).2.2
  lower_closed lb ub h := by
    obtain ⟨n, hn⟩ : ∃ n, (ub.val - lb.val + 1).toNat = n + 1 :=
      ⟨(ub.val - lb.val).toNat, by rw [SignMag.le_iff] at h; omega⟩
    simp only [list, List.nil_append, hn, List.range_succ_eq_map, List.map_cons, List.headD_cons]
    apply SignMag.ext
    rw [Nat.cast_zero, add_zero]
    exact APInt.val_of_fits (APInt.bounds lb).1 (APInt.bounds lb).2
  upper_closed lb ub h := by
    rw [SignMag.le_iff] at h
    obtain ⟨n, hn, hlast⟩ : ∃ n : Nat, (ub.val - lb.val + 1).toNat = n + 1 ∧ lb.val + n = ub.val :=
      ⟨(ub.val - lb.val).toNat, by omega, by omega⟩
    simp only [list, List.nil_append, hn, List.range_succ, List.map_append, List.map_cons,
      List.map_nil,
      List.getLastD_concat]
    apply SignMag.ext
    rw [hlast]
    exact APInt.val_of_fits (APInt.bounds ub).1 (APInt.bounds ub).2

end IntervalSets

/-! ## Domains -/

/-- An integer type. -/
structure IntType where
  bw : Nat
  isSigned : Bool
  bw_valid : 0 < bw ∧ bw ≤ maxDigits

namespace IntType

theorem eq_iff {s t : IntType} : s = t ↔ s.bw = t.bw ∧ s.isSigned = t.isSigned := by
  cases s
  cases t
  simp

instance : DecidableEq IntType := fun _ _ => decidable_of_iff _ eq_iff.symm

def getDomainMin (t : IntType) : APInt :=
  if t.isSigned then getSignedMinValue t.bw else getMinValue t.bw

def getDomainMax (t : IntType) : APInt :=
  if t.isSigned then getSignedMaxValue t.bw else getMaxValue t.bw

/-- The values of the type. -/
def values (t : IntType) : Set Int := Set.Icc t.getDomainMin.val t.getDomainMax.val

/-- The values are below the number that stands for infinity. -/
def Bounded (t : IntType) : Prop := t.isSigned = true ∨ t.bw + 1 < maxDigits

instance (t : IntType) : Decidable t.Bounded := inferInstanceAs (Decidable (_ ∨ _))

end IntType

/-! ## The conversion to a range -/

section Conversion

variable {S : Type}

/-- `domainForVar` -/
def domainForVar (I : IntervalSets S) (t : IntType) : S :=
  I.add I.empty (I.closed t.getDomainMin t.getDomainMax)

def singletonSet (I : IntervalSets S) (value : APInt) : S := I.add I.empty (I.closed value value)

/-- The loop of `tryGetRange` over the intervals: the next value, and the hole if there was
one; nothing if there were two. -/
def findHole (domMax : APInt) : List Interval → APInt → Option (APInt × APInt) →
    Option (APInt × Option (APInt × APInt))
  | [], current, missing => some (current, missing)
  | i :: rest, current, missing =>
    if i.last < i.first then findHole domMax rest current missing
    else
      let gapU := i.first - MinDelta
      let next := i.last + MinDelta
      let advanced := if current < next then next else current
      if current < i.first ∧ current ≤ gapU then
        if missing.isSome then none
        else if domMax < advanced then some (advanced, some (current, gapU))
        else findHole domMax rest advanced (some (current, gapU))
      else if domMax < advanced then some (advanced, missing)
      else findHole domMax rest advanced missing

/-- `hasSingleClosedInterval`, of a set that is not empty. -/
def singleClosedInterval (I : IntervalSets S) (set : S) : Option (APInt × APInt) :=
  match I.intervals set with
  | [i] => if i.isClosed then some (i.first, i.last) else none
  | _ => none

/-- `ValueSetRange::tryGetRange` -/
def tryGetRange (I : IntervalSets S) (set domain : S) (bw : Nat) : Except Error (Option Range) :=
  if I.isEmpty set then some <$> ofType .empty bw
  else
    match singleClosedInterval I set with
    | some (inf, sup) => some <$> ofBounds .regular bw inf sup
    | none =>
      if I.isEmpty domain then .ok none
      else
        let domMax := I.upper domain
        match findHole domMax (I.intervals set) (I.lower domain) none with
        | none => .ok none
        | some (current, missing) =>
          if current ≤ domMax then
            if missing.isSome then .ok none else some <$> ofBounds .anti bw current domMax
          else
            match missing with
            | none => some <$> ofBounds .regular bw (I.lower domain) domMax
            | some (missingL, missingU) => some <$> ofBounds .anti bw missingL missingU

/-- A `ValueRange`: a single range, or a `ValueSetRange` with its approximation. -/
inductive ValueRange (S : Type) where
  | range (r : Range)
  | valueSet (set domain : S) (bw : Nat) (isSigned preferUnknown : Bool) (approx : Range)
  deriving DecidableEq

/-- The constructor of `ValueSetRange`, with `updateApproxRange`. -/
def valueSetRange (I : IntervalSets S) (set domain : S) (t : IntType) (preferUnknown : Bool) :
    Except Error (ValueRange S) := do
  let set := I.intersect set domain
  let approx ← match ← tryGetRange I set domain t.bw with
    | some r => .ok r
    | none =>
      if preferUnknown then ofType .unknown t.bw
      else ofBounds .regular t.bw t.getDomainMin t.getDomainMax
  .ok (.valueSet set domain t.bw t.isSigned preferUnknown approx)

/-- `toValueRange` -/
def toValueRange (I : IntervalSets S) (t : IntType) (set : S) (maxIntervals : Nat)
    (preferUnknown : Bool) : Except Error (ValueRange S) :=
  if maxIntervals < I.iterative_size set ∧ 0 < maxIntervals then .range <$> ofType .unknown t.bw
  else if I.isEmpty set then .range <$> ofType .empty t.bw
  else do
    let tmp := I.intersect set (domainForVar I t)
    match ← tryGetRange I tmp (domainForVar I t) t.bw with
    | some approx => .ok (.range approx)
    | none => valueSetRange I set (domainForVar I t) t preferUnknown

/-- The value is in the set that is handed on: in its range, or in the set and in what its range
approximates. -/
def ValueRange.Contains (I : IntervalSets S) (t : IntType) (x : Int) : ValueRange S → Prop
  | .range r => signedResidue t.bw x ∈ r.gamma
  | .valueSet set _ _ _ _ approx => x ∈ I.values set ∧ signedResidue t.bw x ∈ approx.gamma

end Conversion

/-! ## What is handed on -/

section Contains

variable {t : IntType} {lb ub : APInt} {x : Int} {r : Range}

theorem IntType.domain_val (ht : t.Bounded) :
    t.getDomainMin.val = (if t.isSigned then -half t.bw else 0) ∧
      t.getDomainMax.val = (if t.isSigned then half t.bw else 2 * half t.bw) - 1 := by
  obtain ⟨h0, hw⟩ := t.bw_valid
  unfold IntType.getDomainMin IntType.getDomainMax
  cases hs : t.isSigned with
  | true => exact ⟨getSignedMinValue_val h0 hw, getSignedMaxValue_val h0 hw⟩
  | false =>
    have hlt : t.bw + 1 < maxDigits := ht.resolve_left (by rw [hs]; exact Bool.false_ne_true)
    exact ⟨SignMag.val_zero, getMaxValue_val h0 (by omega)⟩

/-- The values of a type are its words. -/
theorem IntType.mem_values_iff (ht : t.Bounded) :
    x ∈ t.values ↔ (if t.isSigned then -half t.bw else 0) ≤ x ∧
      x < if t.isSigned then half t.bw else 2 * half t.bw := by
  obtain ⟨h1, h2⟩ := IntType.domain_val ht
  unfold IntType.values
  rw [Set.mem_Icc, h1, h2]
  omega

/-- There is room for the neighbours of the values. -/
theorem IntType.domain_room (ht : t.Bounded) :
    -(2 * half maxDigits) + 1 < t.getDomainMin.val ∧
      t.getDomainMax.val + 1 < 2 * half maxDigits := by
  obtain ⟨h1, h2⟩ := IntType.domain_val ht
  obtain ⟨h0, hw⟩ := t.bw_valid
  have hcap := half_le_half hw
  have hbig : 1 < half maxDigits := by
    have := two_le_half_maxDigits
    omega
  have hP := half_pos t.bw
  rw [h1, h2]
  cases hs : t.isSigned with
  | true =>
    simp only [if_true]
    omega
  | false =>
    have hlt : t.bw + 1 < maxDigits := ht.resolve_left (by rw [hs]; exact Bool.false_ne_true)
    have hroom := two_mul_half_le h0 (Nat.lt_succ_self t.bw)
    have hroom' := two_mul_half_le (Nat.succ_pos t.bw) hlt
    simp only [Bool.false_eq_true, if_false]
    omega

theorem holds_regular_values (ht : t.Bounded) (hlb : lb.val ∈ t.values) (hub : ub.val ∈ t.values)
    (h1 : lb.val ≤ x) (h2 : x ≤ ub.val) :
    Holds (ofBounds .regular t.bw lb ub) t.bw (signedResidue t.bw x) := by
  obtain ⟨h0, hw⟩ := t.bw_valid
  have hP := half_pos t.bw
  rw [IntType.mem_values_iff ht] at hlb hub
  cases hs : t.isSigned with
  | true =>
    rw [hs] at hlb hub
    simp only [if_true] at hlb hub
    rw [holds_regular_iff h0 hw hlb.1 (h1.trans h2) hub.2,
      signedResidue_of_mem h0 (by omega) (by omega)]
    exact ⟨⟨by omega, by omega⟩, h1, h2⟩
  | false =>
    rw [hs] at hlb hub
    simp only [Bool.false_eq_true, if_false] at hlb hub
    have hlt : t.bw + 1 < maxDigits := ht.resolve_left (by rw [hs]; exact Bool.false_ne_true)
    have hroom := two_mul_half_le h0 (Nat.lt_succ_self t.bw)
    have hcap := two_mul_half_le (Nat.succ_pos t.bw) hlt
    have hsound := (regularSound_iff_not_loss h0 hw (by omega) (h1.trans h2) (by omega)).mpr
      (not_regularLoss_of_near h0 (by omega) hub.2)
    exact hsound.holds h0 h1 h2

theorem holds_anti_values (ht : t.Bounded) (hlb : lb.val ∈ t.values) (hub : ub.val ∈ t.values)
    (hle : lb.val ≤ ub.val) (hx : x ∈ t.values) (hout : ¬ (lb.val ≤ x ∧ x ≤ ub.val)) :
    Holds (ofBounds .anti t.bw lb ub) t.bw (signedResidue t.bw x) := by
  obtain ⟨h0, hw⟩ := t.bw_valid
  have hP := half_pos t.bw
  rw [IntType.mem_values_iff ht] at hlb hub hx
  cases hs : t.isSigned with
  | true =>
    rw [hs] at hlb hub hx
    simp only [if_true] at hlb hub hx
    obtain ⟨r, hr, hrw, hgamma⟩ := denotes_anti t.bw_valid hlb.1 hle hub.2
    refine ⟨r, hr, hrw, ?_⟩
    rw [hgamma, signedResidue_of_mem h0 (by omega) (by omega)]
    exact ⟨⟨by omega, by omega⟩, by omega⟩
  | false =>
    rw [hs] at hlb hub hx
    simp only [Bool.false_eq_true, if_false] at hlb hub hx
    have hlt : t.bw + 1 < maxDigits := ht.resolve_left (by rw [hs]; exact Bool.false_ne_true)
    have hroom := two_mul_half_le h0 (Nat.lt_succ_self t.bw)
    have hcap := two_mul_half_le (Nat.succ_pos t.bw) hlt
    have hsound := (antiSound_iff_not_loss h0 hw (by omega) hle (by omega)).mpr
      (mt (antiLoss_iff_of_near h0 (by omega) hle hub.2).mp (by omega))
    refine hsound _ (signedResidue_mem h0 x) ?_
    -- Two words that are congruent are equal.
    rintro ⟨k, ⟨h1, h2⟩, hk⟩
    have hmod : x ≡ k [ZMOD 2 ^ t.bw] := (signedResidue_modEq t.bw x).symm.trans hk
    have h2w := two_mul_half h0
    rw [Int.ModEq, Int.emod_eq_of_lt hx.1 (by omega), Int.emod_eq_of_lt (by omega) (by omega)] at hmod
    exact hout (hmod ▸ ⟨h1, h2⟩)

/-- Between the bounds of `m`, in the domain, the set has no element. -/
def IsHole {S : Type} (I : IntervalSets S) (set : S) (t : IntType) (m : APInt × APInt) : Prop :=
  m.1.val ∈ t.values ∧ m.2.val ∈ t.values ∧ m.1.val ≤ m.2.val ∧
    ∀ y ∈ I.values set, ¬ (m.1.val ≤ y ∧ y ≤ m.2.val)

/-- The hole that the loop finds has no element of the set, and neither has what is above the
value it ends at. -/
theorem findHole_spec {S : Type} {I : IntervalSets S} {set : S} (hI : I.Lawful) (ht : t.Bounded)
    (hset : I.values set ⊆ t.values) {done rest : List Interval}
    (hlist : I.intervals set = done ++ rest) {current : APInt} {missing : Option (APInt × APInt)}
    (hdone : ∀ i ∈ done, i.last.val < current.val) (hmissing : ∀ m ∈ missing, IsHole I set t m)
    (hlb : t.getDomainMin.val ≤ current.val) {end_ : APInt} {hole : Option (APInt × APInt)}
    (h : findHole t.getDomainMax rest current missing = some (end_, hole)) :
    (end_ ≤ t.getDomainMax → ∀ y ∈ I.values set, y < end_.val) ∧
      t.getDomainMin.val ≤ end_.val ∧ ∀ m ∈ hole, IsHole I set t m := by
  have happart := hI.apart set
  induction rest generalizing done current missing with
  | nil =>
    cases h
    refine ⟨fun _ y hy => ?_, hlb, hmissing⟩
    obtain ⟨i, hi, h1, h2⟩ := (hI.mem_iff set y).mp hy
    rw [hlist, List.append_nil] at hi
    exact h2.trans_lt (hdone i hi)
  | cons i rest ih =>
    have hi : i ∈ I.intervals set := hlist ▸ List.mem_append_right _ List.mem_cons_self
    have hle := hI.first_le_last set i hi
    have hfirst : i.first.val ∈ t.values := hset ((hI.mem_iff set _).mpr ⟨i, hi, le_rfl, hle⟩)
    have hlast : i.last.val ∈ t.values := hset ((hI.mem_iff set _).mpr ⟨i, hi, hle, le_rfl⟩)
    obtain ⟨hroom1, hroom2⟩ := IntType.domain_room ht
    have hnext := add_minDelta_val (a := i.last) (by have := hlast.2; omega)
    have hgap := sub_minDelta_val (a := i.first) (by have := hfirst.1; omega)
    obtain ⟨advanced, hadv⟩ : ∃ a, a = if current < i.last + MinDelta then i.last + MinDelta
      else current := ⟨_, rfl⟩
    have hpast : current.val ≤ advanced.val ∧ i.last.val < advanced.val := by
      rw [hadv]
      split
      case isTrue hlt =>
        rw [SignMag.lt_iff] at hlt
        omega
      case isFalse hge =>
        rw [SignMag.lt_iff] at hge
        omega
    have hdone' : ∀ j ∈ done ++ [i], j.last.val < advanced.val := by
      intro j hj
      rcases List.mem_append.mp hj with hj | hj
      · exact (hdone j hj).trans_le hpast.1
      · rw [List.mem_singleton.mp hj]
        exact hpast.2
    have hlist' : I.intervals set = (done ++ [i]) ++ rest := by
      rw [hlist, List.append_assoc, List.singleton_append]
    -- The loop goes on behind the interval, or it is past the domain.
    have hrest : ∀ missing', (∀ m ∈ missing', IsHole I set t m) →
        (if t.getDomainMax < advanced then some (advanced, missing')
          else findHole t.getDomainMax rest advanced missing') = some (end_, hole) →
        (end_ ≤ t.getDomainMax → ∀ y ∈ I.values set, y < end_.val) ∧
          t.getDomainMin.val ≤ end_.val ∧ ∀ m ∈ hole, IsHole I set t m := by
      intro missing' hm hres
      split at hres
      case isTrue hbreak =>
        cases hres
        rw [SignMag.lt_iff] at hbreak
        refine ⟨fun hle' => ?_, hlb.trans hpast.1, hm⟩
        rw [SignMag.le_iff] at hle'
        omega
      case isFalse => exact ih hlist' hdone' hm (hlb.trans hpast.1) hres
    unfold findHole at h
    rw [if_neg (by rw [SignMag.lt_iff]; omega)] at h
    dsimp only at h
    rw [← hadv] at h
    split at h
    case isTrue hhole =>
      rw [SignMag.lt_iff, SignMag.le_iff, hgap] at hhole
      split at h
      · cases h
      refine hrest _ (fun m hm => ?_) h
      obtain rfl := Option.some.inj hm
      unfold IsHole
      dsimp only
      rw [hgap]
      refine ⟨⟨hlb, hhole.1.le.trans hfirst.2⟩, ⟨hlb.trans hhole.2, by have := hfirst.2; omega⟩,
        hhole.2, fun y hy hin => ?_⟩
      obtain ⟨j, hj, h1, h2⟩ := (hI.mem_iff set y).mp hy
      rw [hlist] at hj happart
      rcases List.mem_append.mp hj with hj | hj
      · have hbefore := hdone j hj
        omega
      rcases List.mem_cons.mp hj with rfl | hj
      · omega
      · have hafter := List.rel_of_pairwise_cons (List.pairwise_append.mp happart).2.1 hj
        omega
    case isFalse => exact hrest missing hmissing h

theorem map_some_ok {α : Type} {x : Except Error α} {a : α}
    (h : (some <$> x : Except Error (Option α)) = .ok (some a)) : x = .ok a := by
  cases x with
  | error e => cases h
  | ok b =>
    cases h
    rfl

theorem mem_of_holds {x : Except Error Range} {w : Nat} {v : Int} (h : Holds x w v)
    (hx : x = .ok r) : v ∈ r.gamma := by
  rw [hx, holds_ok] at h
  exact h.2

variable {S : Type} {I : IntervalSets S} {set : S}

theorem values_domainForVar (hI : I.Lawful) : I.values (domainForVar I t) = t.values := by
  unfold domainForVar IntType.values
  rw [hI.values_add, hI.values_empty, hI.values_closed, Set.empty_union]

/-- A range that stands for a set has the elements of the set. -/
theorem contains_tryGetRange (hI : I.Lawful) (ht : t.Bounded) (hset : I.values set ⊆ t.values)
    (hx : x ∈ I.values set)
    (h : tryGetRange I set (domainForVar I t) t.bw = .ok (some r)) :
    signedResidue t.bw x ∈ r.gamma := by
  have hdom := hset hx
  have hle : t.getDomainMin.val ≤ t.getDomainMax.val := hdom.1.trans hdom.2
  have hmin : t.getDomainMin.val ∈ t.values := ⟨le_rfl, hle⟩
  have hmax : t.getDomainMax.val ∈ t.values := ⟨hle, le_rfl⟩
  unfold tryGetRange at h
  split at h
  case isTrue hempty =>
    rw [hI.isEmpty_iff] at hempty
    rw [hempty] at hx
    exact hx.elim
  cases hone : singleClosedInterval I set with
  | some bounds =>
    obtain ⟨inf, sup⟩ := bounds
    rw [hone] at h
    unfold singleClosedInterval at hone
    split at hone
    case h_2 => cases hone
    case h_1 i hi =>
      split at hone
      case isFalse => cases hone
      cases hone
      have hmem : ∀ y, y ∈ I.values set ↔ i.first.val ≤ y ∧ y ≤ i.last.val := fun y => by
        rw [hI.mem_iff, hi]
        simp only [List.mem_singleton, exists_eq_left]
      have hbetween := (hmem x).mp hx
      have hends := hbetween.1.trans hbetween.2
      exact mem_of_holds (holds_regular_values ht (hset ((hmem _).mpr ⟨le_rfl, hends⟩))
        (hset ((hmem _).mpr ⟨hends, le_rfl⟩)) hbetween.1 hbetween.2) (map_some_ok h)
  | none =>
    rw [hone] at h
    dsimp only at h
    split at h
    · cases h
    have hlower : I.lower (domainForVar I t) = t.getDomainMin := hI.lower_closed _ _ hle
    have hupper : I.upper (domainForVar I t) = t.getDomainMax := hI.upper_closed _ _ hle
    rw [hlower, hupper] at h
    cases hloop : findHole t.getDomainMax (I.intervals set) t.getDomainMin none with
    | none =>
      rw [hloop] at h
      cases h
    | some found =>
      obtain ⟨current, missing⟩ := found
      rw [hloop] at h
      obtain ⟨habove, hlow, hhole⟩ := findHole_spec hI ht hset (List.nil_append _).symm
        (fun i hi => absurd hi List.not_mem_nil) (fun m hm => by cases hm) le_rfl hloop
      dsimp only at h
      split at h
      case isTrue hcur =>
        split at h
        · cases h
        have hlt := habove hcur x hx
        exact mem_of_holds (holds_anti_values ht ⟨hlow, hcur⟩ hmax hcur hdom (by omega))
          (map_some_ok h)
      case isFalse =>
        cases missing with
        | none => exact mem_of_holds (holds_regular_values ht hmin hmax hdom.1 hdom.2) (map_some_ok h)
        | some m =>
          obtain ⟨h1, h2, h3, hout⟩ := hhole m rfl
          exact mem_of_holds (holds_anti_values ht h1 h2 h3 hdom (hout x hx)) (map_some_ok h)

theorem mem_of_unknown (h : ofType .unknown t.bw = .ok r) : signedResidue t.bw x ∈ r.gamma :=
  mem_of_holds (holds_unknown t.bw_valid (signedResidue_mem t.bw_valid.1 x)) h

/-- What is handed on has the elements of the set. -/
theorem contains_toValueRange (hI : I.Lawful) (ht : t.Bounded) (hx : x ∈ I.values set)
    (hdom : x ∈ t.values) {maxIntervals : Nat} {vr : ValueRange S}
    (h : toValueRange I t set maxIntervals true = .ok vr) : vr.Contains I t x := by
  have hdomain := values_domainForVar (t := t) hI
  have hinter : I.values (I.intersect set (domainForVar I t)) = I.values set ∩ t.values := by
    rw [hI.values_intersect, hdomain]
  have hsub : I.values (I.intersect set (domainForVar I t)) ⊆ t.values := by
    rw [hinter]
    exact Set.inter_subset_right
  have hmem : x ∈ I.values (I.intersect set (domainForVar I t)) := by
    rw [hinter]
    exact ⟨hx, hdom⟩
  unfold toValueRange at h
  split at h
  · cases hr : ofType .unknown t.bw with
    | error e =>
      rw [hr] at h
      cases h
    | ok r =>
      rw [hr] at h
      cases h
      exact mem_of_unknown hr
  split at h
  case isTrue hempty =>
    rw [hI.isEmpty_iff] at hempty
    rw [hempty] at hx
    exact hx.elim
  obtain ⟨found, hfound, h⟩ := bind_ok h
  cases found with
  | some approx =>
    cases h
    exact contains_tryGetRange hI ht hsub hmem hfound
  | none =>
    -- The set itself is kept, and nothing is known of its range.
    dsimp only at h
    unfold valueSetRange at h
    dsimp only at h
    rw [hfound, ok_bind] at h
    obtain ⟨approx, happrox, h⟩ := bind_ok h
    cases h
    exact ⟨hmem, mem_of_unknown happrox⟩

end Contains
end RangeAnalysis
end Bambu
