/-
  Bambu.IRAnalysis.BitValue.DontCare

  The rows with `X` of the tables for sums and differences.  An `X` of an operand may be
  resolved either way; what the loop knows of the result should be achieved by some choice,
  whatever the unknown bits are (`Achievable`).

  Sums do: every row with one `X` is the row with a zero in its place.  Two rows of
  `subNodeMap` under a borrow drop it where no choice avoids it: `0 - X` and `X - U`.  The
  lost borrow does harm if it reaches a pair of known bits (`Misborrows`), and only then.
-/

import Bambu.IRAnalysis.BitValue.NodeMaps

namespace Bambu

open Bambu.Math

/-! ## Resolutions -/

/-- The bit of a position whose `U` is resolved to `u` and whose `X` is resolved to `x`. -/
def BitLattice.resolve (t : BitLattice) (u x : Bool) : Bool :=
  match t with
  | .U => u
  | .ZERO => false
  | .ONE => true
  | .X => x

/-- A known position is the bit. -/
def BitLattice.Permits (t : BitLattice) (b : Bool) : Prop := t = .X ∨ t.Agrees b

instance (t : BitLattice) (b : Bool) : Decidable (t.Permits b) :=
    inferInstanceAs (Decidable (_ ∨ _))

namespace BitValue

open BitLattice

/-- The number with the positions `ts`, from position `i` on, the least significant one
first. -/
def resolveLoop (u x : Nat → Bool) : Nat → Bitstring → Nat
  | _, [] => 0
  | i, t :: ts => (t.resolve (u i) (x i)).toNat + 2 * resolveLoop u x (i + 1) ts

/-- The number that a bitstring stands for under a resolution of its positions. -/
def resolve (op : Bitstring) (u x : Nat → Bool) : Nat := resolveLoop u x 0 op.reverse

/-- What is known of the result of the loop is right for some choice of the `X` bits,
whatever the `U` bits are. -/
def Achievable (nodeMap : NodeMap) (operation : Int → Int → Int) (size : Nat)
    (op0 op1 : Bitstring) : Prop :=
  ∀ u0 u1 : Nat → Bool, ∃ x0 x1 : Nat → Bool, ∀ i < (ripple nodeMap size op0 op1).1.length,
    (position false (ripple nodeMap size op0 op1).1 i).Permits
      (bitAt (operation (resolve op0 u0 x0) (resolve op1 u1 x1)) i)

theorem bitAt_cons_zero (b : Bool) (n : Nat) : bitAt ((b.toNat + 2 * n : Nat) : Int) 0 = b := by
  apply toNat_injective
  have hle := Bool.toNat_le b
  rw [toNat_bitAt]
  push_cast
  omega

theorem bitAt_cons_succ (b : Bool) (n i : Nat) :
    bitAt ((b.toNat + 2 * n : Nat) : Int) (i + 1) = bitAt (n : Int) i := by
  have hle := Bool.toNat_le b
  have hdiv : ((b.toNat + 2 * n : Nat) : Int) / 2 ^ 1 = n := by
    push_cast
    omega
  rw [← hdiv, bitAt_ediv, Nat.add_comm i]

theorem bitAt_resolveLoop (u x : Nat → Bool) (ts : Bitstring) (i j : Nat) :
    bitAt (resolveLoop u x i ts) j =
      if h : j < ts.length then ts[j].resolve (u (i + j)) (x (i + j)) else false := by
  induction ts generalizing i j with
  | nil => exact bitAt_zero j
  | cons t ts ih =>
    cases j with
    | zero => exact bitAt_cons_zero _ _
    | succ j =>
      have hindex : i + 1 + j = i + (j + 1) := by omega
      unfold resolveLoop
      rw [bitAt_cons_succ, ih, hindex]
      simp only [List.length_cons, Nat.add_lt_add_iff_right, List.getElem_cons_succ]

/-- The bits of a resolved operand are its resolved positions. -/
theorem bitAt_resolve {op : Bitstring} (h : op ≠ []) (u x : Nat → Bool) :
    bitAt (resolve op u x) = fun i => (position false op i).resolve (u i) (x i) := by
  funext i
  unfold resolve
  rw [bitAt_resolveLoop]
  by_cases hi : i < op.reverse.length
  · rw [dif_pos hi, Nat.zero_add, position_eq_getElem_reverse false hi]
  · rw [dif_neg hi, position_false_of_ge h (by rw [List.length_reverse] at hi; omega)]
    rfl

/-! ## Runs with choices -/

section Runs

/-- A run in which every step has a choice that keeps the invariant. -/
theorem exists_choices {S A : Type} [Nonempty A] {next : Nat → S → A → S} {P : Nat → S → Prop}
    {Q : Nat → S → A → Prop} {s0 : S} (h0 : P 0 s0)
    (hstep : ∀ i s, P i s → ∃ a, P (i + 1) (next i s a) ∧ Q i s a) :
    ∃ (s : Nat → S) (a : Nat → A), s 0 = s0 ∧ ∀ i, s (i + 1) = next i (s i) (a i) ∧
      Q i (s i) (a i) := by
  choose! choice hchoice using hstep
  -- The states are those of the run that always takes the choice.
  let s : Nat → S := fun i => Nat.rec s0 (fun i s => next i s (choice i s)) i
  have hP : ∀ i, P i (s i) := fun i => by
    induction i with
    | zero => exact h0
    | succ i ih => exact (hchoice i _ ih).1
  exact ⟨s, fun i => choice i (s i), rfl, fun i => ⟨rfl, (hchoice i _ (hP i)).2⟩⟩

variable {nodeMap : NodeMap} {step : Bool → Bool → Bool → Bool × Bool} {a b : Nat → BitLattice}

/-- The bits of an operand under a resolution. -/
def bits (a : Nat → BitLattice) (u x : Nat → Bool) (i : Nat) : Bool := (a i).resolve (u i) (x i)

/-- The same as `Achievable`, over the positions of the operands. -/
def AchievableBits (nodeMap : NodeMap) (step : Bool → Bool → Bool → Bool × Bool)
    (a b : Nat → BitLattice) (n : Nat) : Prop :=
  ∀ u0 u1 : Nat → Bool, ∃ x0 x1 : Nat → Bool, ∀ i < n,
    (sumAt nodeMap a b .ZERO i).Permits (sumAt step (bits a u0 x0) (bits b u1 x1) false i)

theorem achievable_iff {operation : Int → Int → Int} {size : Nat} {op0 op1 : Bitstring}
    (hop : ∀ x y i, sumAt step (bitAt x) (bitAt y) false i = bitAt (operation x y) i)
    (hlen : op0.length = op1.length) :
    Achievable nodeMap operation size op0 op1 ↔
      AchievableBits nodeMap step (position false op0) (position false op1)
        (min size op0.length) := by
  obtain ⟨⟨hholds, -⟩, hl⟩ := ripple_spec nodeMap false size op0 op1
  rw [← hlen, min_self] at hl
  unfold Achievable AchievableBits
  refine forall_congr' fun u0 => forall_congr' fun u1 => exists_congr fun x0 =>
    exists_congr fun x1 => forall_congr' fun i => ?_
  rw [hl]
  refine forall_congr' fun hi => ?_
  have h0 : op0 ≠ [] := fun h => by rw [h] at hi; simp at hi
  have h1 : op1 ≠ [] := fun h => by rw [hlen, h] at hi; simp at hi
  rw [hholds i (by omega), ← hop, bitAt_resolve h0, bitAt_resolve h1]
  rfl

/-- An invariant of the carries of the table and of the bits, with a choice in each step. -/
theorem achievableBits_of_step {n : Nat} {P : Nat → Carry → Bool → Prop} (h0 : P 0 .ZERO false)
    (hstep : ∀ i < n, ∀ c r, c = carryAt nodeMap a b .ZERO i → P i c r → ∀ u0 u1, ∃ x0 x1,
      P (i + 1) (nodeMap (a i) (b i) c).1
          (step ((a i).resolve u0 x0) ((b i).resolve u1 x1) r).1 ∧
        (nodeMap (a i) (b i) c).2.Permits
          (step ((a i).resolve u0 x0) ((b i).resolve u1 x1) r).2) :
    AchievableBits nodeMap step a b n := by
  intro u0 u1
  -- Past the last position nothing is asked for.
  have hchoice : ∀ i r, (i ≤ n → P i (carryAt nodeMap a b .ZERO i) r) → ∃ x : Bool × Bool,
      (i + 1 ≤ n → P (i + 1) (carryAt nodeMap a b .ZERO (i + 1))
        (step ((a i).resolve (u0 i) x.1) ((b i).resolve (u1 i) x.2) r).1) ∧
      (i < n → (sumAt nodeMap a b .ZERO i).Permits
        (step ((a i).resolve (u0 i) x.1) ((b i).resolve (u1 i) x.2) r).2) := by
    intro i r hP
    by_cases hi : i < n
    · obtain ⟨x0, x1, hnext, hbit⟩ := hstep i hi _ r rfl (hP hi.le) (u0 i) (u1 i)
      exact ⟨(x0, x1), fun _ => hnext, fun _ => hbit⟩
    · exact ⟨(false, false), fun hle => absurd hle (by omega), fun hlt => absurd hlt hi⟩
  obtain ⟨r, x, hr0, hr⟩ := exists_choices (fun _ => h0) hchoice
  refine ⟨fun i => (x i).1, fun i => (x i).2, fun i hi => ?_⟩
  have hcarry : ∀ i, carryAt step (bits a u0 fun i => (x i).1) (bits b u1 fun i => (x i).2)
      false i = r i := fun i => by
    induction i with
    | zero => exact hr0.symm
    | succ i ih => rw [(hr i).1, ← ih]; rfl
  have hbit := (hr i).2 hi
  rw [← hcarry i] at hbit
  exact hbit

end Runs

/-! ## Sums -/

/-- With zeros for the `X` bits a sum follows the table. -/
theorem addNodeMap_step (a b : BitLattice) (c : Carry) (r u0 u1 : Bool) (hr : c.Agrees r) :
    (addNodeMap a b c).1.Agrees (fullAdder (a.resolve u0 false) (b.resolve u1 false) r).1 ∧
      (addNodeMap a b c).2.Permits (fullAdder (a.resolve u0 false) (b.resolve u1 false) r).2 := by
  revert r u0 u1
  cases a <;> cases b <;> cases c <;> decide

theorem achievable_addNodeMap {op0 op1 : Bitstring} (size : Nat) (hlen : op0.length = op1.length) :
    Achievable addNodeMap (· + ·) size op0 op1 := by
  rw [achievable_iff sumAt_fullAdder hlen]
  refine achievableBits_of_step (P := fun _ c r => c.Agrees r) (show Carry.ZERO.Agrees false from rfl) ?_
  intro i _ c r _ hr u0 u1
  exact ⟨false, false, addNodeMap_step _ _ c r u0 u1 hr⟩

/-! ## Differences -/

/-- The pairs that give a borrow. -/
def gives (a b : BitLattice) : Bool := a = .ZERO ∧ b = .ONE

/-- The pairs that pass a known borrow on. -/
def keeps : BitLattice → BitLattice → Bool
  | .ZERO, .ZERO | .ZERO, .ONE | .ZERO, .U | .ONE, .ONE | .U, .ONE | .X, .ONE => true
  | _, _ => false

/-- The pairs at which the table drops a known borrow that may be there. -/
def drops : BitLattice → BitLattice → Bool
  | .ZERO, .X | .X, .U => true
  | _, _ => false

/-- The pairs that pass on a borrow the table does not know of, for some of the unknown
bits. -/
def passes : BitLattice → BitLattice → Bool
  | .X, .ONE | .X, .U | .ZERO, .X | .ONE, .U | .U, .X | .U, .ZERO => true
  | _, _ => false

/-- The pairs of two known bits. -/
def known : BitLattice → BitLattice → Bool
  | .ZERO, .ZERO | .ZERO, .ONE | .ONE, .ZERO | .ONE, .ONE => true
  | _, _ => false

/-- A borrow given at `k` is known up to `i`. -/
def KnownBorrow (a b : Nat → BitLattice) (i : Nat) : Prop :=
  ∃ k < i, gives (a k) (b k) ∧ ∀ m < i, k < m → keeps (a m) (b m)

/-- A known borrow is dropped before `j` and may still be there at `j`. -/
def LostBorrow (a b : Nat → BitLattice) (j : Nat) : Prop :=
  ∃ i < j, KnownBorrow a b i ∧ drops (a i) (b i) ∧ ∀ m < j, i < m → passes (a m) (b m)

/-- A lost borrow reaches a pair of known bits. -/
def Misborrows (a b : Nat → BitLattice) (n : Nat) : Prop :=
  ∃ j < n, LostBorrow a b j ∧ known (a j) (b j)

instance (a b : Nat → BitLattice) (i : Nat) : Decidable (KnownBorrow a b i) :=
  inferInstanceAs (Decidable (∃ _ < _, _ ∧ ∀ _ < _, _ → _))

instance (a b : Nat → BitLattice) (j : Nat) : Decidable (LostBorrow a b j) :=
  inferInstanceAs (Decidable (∃ _ < _, _ ∧ _ ∧ ∀ _ < _, _ → _))

instance (a b : Nat → BitLattice) (n : Nat) : Decidable (Misborrows a b n) :=
  inferInstanceAs (Decidable (∃ _ < _, _ ∧ _))

section Difference

variable {a b : Nat → BitLattice}

/-- A property of a stretch that starts at `i`, one pair further. -/
theorem stretch_succ {P : Nat → Prop} {i j : Nat} (h : ∀ m < j, i < m → P m) (hj : i < j → P j) :
    ∀ m < j + 1, i < m → P m := by
  intro m hm him
  rcases Nat.lt_or_eq_of_le (Nat.le_of_lt_succ hm) with hlt | rfl
  · exact h m hlt him
  · exact hj him

theorem KnownBorrow.of_gives {i : Nat} (h : gives (a i) (b i)) : KnownBorrow a b (i + 1) :=
  ⟨i, Nat.lt_succ_self i, h, fun _ hm him => absurd hm (by omega)⟩

theorem KnownBorrow.succ {i : Nat} (h : KnownBorrow a b i) (hk : keeps (a i) (b i)) :
    KnownBorrow a b (i + 1) := by
  obtain ⟨k, hki, hgives, hkeeps⟩ := h
  exact ⟨k, by omega, hgives, stretch_succ hkeeps fun _ => hk⟩

theorem LostBorrow.of_drops {i : Nat} (h : KnownBorrow a b i) (hd : drops (a i) (b i)) :
    LostBorrow a b (i + 1) :=
  ⟨i, Nat.lt_succ_self i, h, hd, fun _ hm him => absurd hm (by omega)⟩

theorem LostBorrow.succ {j : Nat} (h : LostBorrow a b j) (hp : passes (a j) (b j)) :
    LostBorrow a b (j + 1) := by
  obtain ⟨i, hij, hknown, hdrops, hpasses⟩ := h
  exact ⟨i, by omega, hknown, hdrops, stretch_succ hpasses fun _ => hp⟩

/-! ### Where no known bit sees a lost borrow -/

/-- The rows of the table in which the borrow it holds is right. -/
theorem subNodeMap_step (a b : BitLattice) (c : Carry) (r u0 u1 : Bool) (hr : c.Agrees r) :
    ∃ x0 x1, ((subNodeMap a b c).1.Agrees
          (fullSubtractor (a.resolve u0 x0) (b.resolve u1 x1) r).1 ∨
        c = .ONE ∧ drops a b ∧ (subNodeMap a b c).1 = .ZERO ∧
          (fullSubtractor (a.resolve u0 x0) (b.resolve u1 x1) r).1 = true) ∧
      (subNodeMap a b c).2.Permits (fullSubtractor (a.resolve u0 x0) (b.resolve u1 x1) r).2 := by
  revert r u0 u1
  cases a <;> cases b <;> cases c <;> decide

/-- The rows under a borrow that the table does not know of. -/
theorem subNodeMap_step_lost (a b : BitLattice) (u0 u1 : Bool) (hk : known a b = false) :
    ∃ x0 x1, ((subNodeMap a b .ZERO).1.Agrees
          (fullSubtractor (a.resolve u0 x0) (b.resolve u1 x1) true).1 ∨
        passes a b ∧ (subNodeMap a b .ZERO).1 = .ZERO ∧
          (fullSubtractor (a.resolve u0 x0) (b.resolve u1 x1) true).1 = true) ∧
      (subNodeMap a b .ZERO).2.Permits
        (fullSubtractor (a.resolve u0 x0) (b.resolve u1 x1) true).2 := by
  revert u0 u1
  cases a <;> cases b <;> revert hk <;> decide

theorem subNodeMap_one (a b : BitLattice) (c : Carry) (h : (subNodeMap a b c).1 = .ONE) :
    gives a b ∨ c = .ONE ∧ keeps a b := by
  cases a <;> cases b <;> cases c <;> revert h <;> decide

/-- A borrow that the table knows of was given, and kept since. -/
theorem knownBorrow_of_carry (i : Nat) (h : carryAt subNodeMap a b .ZERO i = .ONE) :
    KnownBorrow a b i := by
  induction i with
  | zero => exact nomatch h
  | succ i ih =>
    rcases subNodeMap_one _ _ _ h with hgives | ⟨hc, hkeeps⟩
    · exact .of_gives hgives
    · exact (ih hc).succ hkeeps

/-- The borrow of the table is right, or one was lost. -/
def Tracked (a b : Nat → BitLattice) (i : Nat) (c : Carry) (r : Bool) : Prop :=
  c.Agrees r ∨ c = .ZERO ∧ r = true ∧ LostBorrow a b i

theorem achievableBits_subNodeMap {n : Nat} (h : ¬ Misborrows a b n) :
    AchievableBits subNodeMap fullSubtractor a b n := by
  refine achievableBits_of_step (P := Tracked a b) (.inl (show Carry.ZERO.Agrees false from rfl)) ?_
  intro i hi c r hc hr u0 u1
  rcases hr with hagree | ⟨rfl, rfl, hlost⟩
  · obtain ⟨x0, x1, hnext, hbit⟩ := subNodeMap_step (a i) (b i) c r u0 u1 hagree
    refine ⟨x0, x1, hnext.imp_right ?_, hbit⟩
    rintro ⟨rfl, hdrops, hzero, htrue⟩
    exact ⟨hzero, htrue, .of_drops (knownBorrow_of_carry i hc.symm) hdrops⟩
  · have hk : known (a i) (b i) = false := by
      rw [← Bool.not_eq_true]
      exact fun hk => h ⟨i, hi, hlost, hk⟩
    obtain ⟨x0, x1, hnext, hbit⟩ := subNodeMap_step_lost (a i) (b i) u0 u1 hk
    refine ⟨x0, x1, hnext.imp_right ?_, hbit⟩
    rintro ⟨hpasses, hzero, htrue⟩
    exact ⟨hzero, htrue, hlost.succ hpasses⟩

/-! ### Where one does

The unknown bits of the first operand are zeros and those of the second are ones. -/

variable {x0 x1 : Nat → Bool}

/-- The borrow of the bits under this resolution of the unknown ones. -/
def borrowAt (a b : Nat → BitLattice) (x0 x1 : Nat → Bool) : Nat → Bool :=
  carryAt fullSubtractor (bits a (fun _ => false) x0) (bits b (fun _ => true) x1) false

/-- The pairs of a lost borrow, whatever their `X` bits are. -/
theorem rows_of_lost (a b : BitLattice) (c : Carry) (x0 x1 r : Bool) :
    (gives a b → (subNodeMap a b c).1 = .ONE ∧
        (fullSubtractor (a.resolve false x0) (b.resolve true x1) r).1 = true) ∧
      (keeps a b → c = .ONE ∧ r = true → (subNodeMap a b c).1 = .ONE ∧
        (fullSubtractor (a.resolve false x0) (b.resolve true x1) r).1 = true) ∧
      (drops a b → c = .ONE ∧ r = true → (subNodeMap a b c).1 = .ZERO ∧
        (fullSubtractor (a.resolve false x0) (b.resolve true x1) r).1 = true) ∧
      (passes a b → c = .ZERO ∧ r = true → (subNodeMap a b c).1 = .ZERO ∧
        (fullSubtractor (a.resolve false x0) (b.resolve true x1) r).1 = true) ∧
      (known a b → c = .ZERO ∧ r = true → ¬ (subNodeMap a b c).2.Permits
        (fullSubtractor (a.resolve false x0) (b.resolve true x1) r).2) := by
  revert x0 x1 r
  cases a <;> cases b <;> cases c <;> decide

theorem KnownBorrow.carry {i : Nat} (h : KnownBorrow a b i) (x0 x1 : Nat → Bool) :
    carryAt subNodeMap a b .ZERO i = .ONE ∧ borrowAt a b x0 x1 i = true := by
  obtain ⟨k, hki, hgives, hkeeps⟩ := h
  induction i with
  | zero => exact absurd hki (Nat.not_lt_zero k)
  | succ i ih =>
    obtain ⟨hgive, hkeep, -⟩ := rows_of_lost (a i) (b i) (carryAt subNodeMap a b .ZERO i) (x0 i)
      (x1 i) (borrowAt a b x0 x1 i)
    rcases Nat.lt_or_eq_of_le (Nat.le_of_lt_succ hki) with hlt | rfl
    · exact hkeep (hkeeps i (Nat.lt_succ_self i) hlt) (ih hlt fun m hm => hkeeps m (by omega))
    · exact hgive hgives

theorem LostBorrow.carry {j : Nat} (h : LostBorrow a b j) (x0 x1 : Nat → Bool) :
    carryAt subNodeMap a b .ZERO j = .ZERO ∧ borrowAt a b x0 x1 j = true := by
  obtain ⟨i, hij, hknown, hdrops, hpasses⟩ := h
  induction j with
  | zero => exact absurd hij (Nat.not_lt_zero i)
  | succ j ih =>
    obtain ⟨-, -, hdrop, hpass, -⟩ := rows_of_lost (a j) (b j) (carryAt subNodeMap a b .ZERO j)
      (x0 j) (x1 j) (borrowAt a b x0 x1 j)
    rcases Nat.lt_or_eq_of_le (Nat.le_of_lt_succ hij) with hlt | rfl
    · exact hpass (hpasses j (Nat.lt_succ_self j) hlt) (ih hlt fun m hm => hpasses m (by omega))
    · exact hdrop hdrops (hknown.carry x0 x1)

theorem not_achievableBits_subNodeMap {n : Nat} (h : Misborrows a b n) :
    ¬ AchievableBits subNodeMap fullSubtractor a b n := by
  obtain ⟨j, hj, hlost, hknown⟩ := h
  intro hall
  obtain ⟨x0, x1, hx⟩ := hall (fun _ => false) (fun _ => true)
  obtain ⟨-, -, -, -, hbit⟩ := rows_of_lost (a j) (b j) (carryAt subNodeMap a b .ZERO j) (x0 j)
    (x1 j) (borrowAt a b x0 x1 j)
  exact hbit hknown (hlost.carry x0 x1) (hx j hj)

end Difference

/-- What is known of a sum is always achieved by some choice of the don't-care bits; what is
known of a difference is, exactly where no lost borrow reaches a pair of known bits. -/
theorem achievable_addSub_iff (size : Nat) {op0 op1 : Bitstring} (hlen : op0.length = op1.length) :
    (Achievable addNodeMap (· + ·) size op0 op1 ∧ Achievable subNodeMap (· - ·) size op0 op1) ↔
      ¬ Misborrows (position false op0) (position false op1) (min size op0.length) := by
  rw [and_iff_right (achievable_addNodeMap size hlen), achievable_iff sumAt_fullSubtractor hlen]
  constructor
  · intro hall hmis
    exact not_achievableBits_subNodeMap hmis hall
  · exact achievableBits_subNodeMap

/-- `X00 - 0X1`: the front pays for the borrow that is lost under it. -/
theorem achievable_addSub_paid :
    Achievable addNodeMap (· + ·) 3 [.X, .ZERO, .ZERO] [.ZERO, .X, .ONE] ∧
      Achievable subNodeMap (· - ·) 3 [.X, .ZERO, .ZERO] [.ZERO, .X, .ONE] :=
  (@achievable_addSub_iff 3 [.X, .ZERO, .ZERO] [.ZERO, .X, .ONE] rfl).mpr (by decide)

/-- `000 - 0X1` is one of `111` and `101`, and the loop gives `011`. -/
theorem not_achievable_subNodeMap :
    (ripple subNodeMap 3 [.ZERO, .ZERO, .ZERO] [.ZERO, .X, .ONE]).1 = [.ZERO, .ONE, .ONE] ∧
      ¬ Achievable subNodeMap (· - ·) 3 [.ZERO, .ZERO, .ZERO] [.ZERO, .X, .ONE] := by
  refine ⟨rfl, ?_⟩
  have hlen : [ZERO, ZERO, ZERO].length = [ZERO, X, ONE].length := rfl
  rw [achievable_iff sumAt_fullSubtractor hlen]
  exact not_achievableBits_subNodeMap (by decide)

end BitValue

end Bambu
