/-
  Bambu.IRAnalysis.Constdivmul.MultHighpart

  The high half of a product by a constant: `expand_mult_highpart`, which the divisions by
  magic multipliers go through.

  The operands are cut at half of the width, rounded down.  Every partial product and sum
  but the last then stays in the type, so that the result is the product shifted by twice
  that half (`expandMultHighpart_emits`): by the width where it is even, by one bit less
  where it is odd.
-/

import Bambu.IRAnalysis.Constdivmul.Emission

namespace Bambu.Constdivmul

open Bambu.Math Bambu.Math.StraightLine

/-! ## The source -/

/-- An `ir_nodeRef`; a product that is known to be zero is a null one. -/
abbrev NodeRef := Option Operand

/-- The product by a half of the constant. -/
def timesConstant (type : IRType) (u : Operand) (v : Int) : Builder Expr NodeRef :=
  if v ≠ 0 then
    if v = 1 then pure (some u)
    else some <$> createAssign (.binary type .mul u (.cst v type))
  else pure none

/-- Assigns `e` of a node that is there. -/
def onNode (node : NodeRef) (e : Operand → Expr) : Builder Expr NodeRef :=
  match node with
  | none => pure none
  | some a => some <$> createAssign (e a)

/-- Adds two nodes where both are there. -/
def addNodes (type : IRType) (node node' : NodeRef) : Builder Expr NodeRef :=
  match node, node' with
  | some a, some b => some <$> createAssign (.binary type .add a b)
  | some a, none => pure (some a)
  | none, node' => pure node'

def maskHalf (type : IRType) (halfDataBitsize : Nat) (a : Operand) : Expr :=
  .binary type .bitAnd a (.cst (2 ^ halfDataBitsize - 1) type)

def shiftHalf (type : IRType) (halfDataBitsize : Nat) (a : Operand) : Expr :=
  .binary type .shr a (.cst halfDataBitsize type)

/-- `expand_mult_highpart` from the products with the high half of the constant on. -/
def addHighProducts (type : IRType) (halfDataBitsize : Nat) (u0 u1 : Operand) (v1 : Int)
    (u0v0hu1v0 : NodeRef) : Builder Expr Operand := do
  let w1 ← onNode u0v0hu1v0 (maskHalf type halfDataBitsize)
  let w2 ← onNode u0v0hu1v0 (shiftHalf type halfDataBitsize)
  let u0v1 ← timesConstant type u0 v1
  let w1u0v1 ← addNodes type w1 u0v1
  let w1u0v1h ← onNode w1u0v1 (shiftHalf type halfDataBitsize)
  let u1v1 ← timesConstant type u1 v1
  let w1u0v1hw2 ← addNodes type w1u0v1h w2
  let res ← addNodes type w1u0v1hw2 u1v1
  pure (res.getD (.cst 0 type))

/-- `IR_lowering::expand_mult_highpart`. -/
def expandMultHighpart (op0 : Operand) (ml : Nat) (type : IRType) (dataBitsize : Nat) :
    Builder Expr (Except String Operand) := do
  let halfDataBitsize := dataBitsize / 2
  let u0 ← createAssign (maskHalf type halfDataBitsize op0)
  let u1 ← createAssign (shiftHalf type halfDataBitsize op0)
  let v0 := Int.land (signedResidue 64 ml) (2 ^ halfDataBitsize - 1)
  let unsignedp := type.isUnsigned
  let v1 :=
    if unsignedp then signedResidue 64 (ml / 2 ^ halfDataBitsize : Nat)
    else signedResidue 64 ml / 2 ^ halfDataBitsize
  let u0v0 ← timesConstant type u0 v0
  let u0v0h ← onNode u0v0 (shiftHalf type halfDataBitsize)
  let u0v0hU ←
    (if !unsignedp then onNode u0v0h (maskHalf type halfDataBitsize) else pure u0v0h)
  let u1v0 ← timesConstant type u1 v0
  if u0v0hU.isSome ∧ u1v0 = none then pure (.error "unexpected condition")
  else do
    let u0v0hu1v0 ← (if u0v0hU.isSome then addNodes type u0v0hU u1v0 else pure none)
    .ok <$> addHighProducts type halfDataBitsize u0 u1 v1 u0v0hu1v0

/-! ## The high half, from the halves of the operands -/

section Halves

variable {L H M : Int}

/-- A carry and a product with a half stay where the operands are. -/
theorem add_mul_mem {a b c : Int} (hL : L ≤ 0) (hH : 0 < H) (ha : 0 ≤ a)
    (haM : a < M) (hb : L ≤ b) (hbH : b < H) (hc : 0 ≤ c) (hcM : c < M) :
    L * M ≤ c + a * b ∧ c + a * b < H * M := by
  have hlow : a * L ≤ a * b := mul_le_mul_of_nonneg_left hb ha
  have hhigh : a * b ≤ a * (H - 1) := mul_le_mul_of_nonneg_left (by omega) ha
  have hlow' : L * M ≤ L * a := mul_le_mul_of_nonpos_left haM.le hL
  have hhigh' : a * (H - 1) ≤ (M - 1) * (H - 1) :=
    mul_le_mul_of_nonneg_right (by omega) (by omega)
  constructor
  · linarith [mul_comm a L]
  · nlinarith

/-- The schoolbook product, without its low half. -/
theorem mul_ediv_sq (hM : 0 < M) (u v : Int) :
    u * v / (M * M) =
      (u % M * (v % M) / M + u / M * (v % M)) / M +
        ((u % M * (v % M) / M + u / M * (v % M)) % M + u % M * (v / M)) / M +
        u / M * (v / M) := by
  set s := u % M * (v % M) / M + u / M * (v % M) with hs
  have hu := Int.mul_ediv_add_emod u M
  have hv := Int.mul_ediv_add_emod v M
  have hlow := Int.mul_ediv_add_emod (u % M * (v % M)) M
  have hsum := Int.mul_ediv_add_emod s M
  have hexpand : u * v = u % M * (v % M) +
      (u / M * (v % M) + u % M * (v / M) + M * (u / M * (v / M))) * M := by
    conv_lhs => rw [← hu, ← hv]
    ring
  have hquotient : u * v / M = s % M + u % M * (v / M) + (s / M + u / M * (v / M)) * M := by
    rw [hexpand, Int.add_mul_ediv_right _ _ hM.ne']
    linear_combination -hsum - hs
  rw [← Int.ediv_ediv_of_nonneg hM.le, hquotient, Int.add_mul_ediv_right _ _ hM.ne']
  ring

end Halves

/-! ## The values of a type -/

/-- The values of a type. -/
def IRType.range : IRType → Set Int
  | .boolean => Set.Ico 0 2
  | .integer true bits => signedRange bits
  | .integer false bits => Set.Ico 0 (2 ^ bits)

section Types

variable {isSigned : Bool} {w h : Nat}

theorem wrap_modEq (isSigned : Bool) (w : Nat) (v : Int) :
    (IRType.integer isSigned w).wrap v ≡ v [ZMOD 2 ^ w] := by
  cases isSigned with
  | true => exact signedResidue_modEq w v
  | false => exact Int.mod_modEq v _

theorem wrap_eq_iff (isSigned : Bool) {v v' : Int} :
    (IRType.integer isSigned w).wrap v = (IRType.integer isSigned w).wrap v' ↔
      v ≡ v' [ZMOD 2 ^ w] := by
  cases isSigned with
  | true => exact signedResidue_eq_iff
  | false => exact Iff.rfl

theorem wrap_of_mem (hw : 0 < w) {v : Int} (hv : v ∈ (IRType.integer isSigned w).range) :
    (IRType.integer isSigned w).wrap v = v := by
  cases isSigned with
  | true => exact signedResidue_of_mem hw hv.1 hv.2
  | false => exact Int.emod_eq_of_lt hv.1 hv.2

theorem wrap_wrap (isSigned : Bool) (w : Nat) (v : Int) :
    (IRType.integer isSigned w).wrap ((IRType.integer isSigned w).wrap v) =
      (IRType.integer isSigned w).wrap v := (wrap_eq_iff isSigned).mpr (wrap_modEq isSigned w v)

theorem wrap_add_wrap (isSigned : Bool) (w : Nat) (v v' : Int) :
    (IRType.integer isSigned w).wrap
        ((IRType.integer isSigned w).wrap v + (IRType.integer isSigned w).wrap v') =
      (IRType.integer isSigned w).wrap (v + v') :=
  (wrap_eq_iff isSigned).mpr ((wrap_modEq isSigned w v).add (wrap_modEq isSigned w v'))

theorem wrap_mem (isSigned : Bool) (hw : 0 < w) (v : Int) :
    (IRType.integer isSigned w).wrap v ∈ (IRType.integer isSigned w).range := by
  have hpos : (0 : Int) < 2 ^ w := by positivity
  cases isSigned with
  | true => exact signedResidue_mem hw v
  | false => exact ⟨Int.emod_nonneg v hpos.ne', Int.emod_lt_of_pos v hpos⟩

/-- The values of the type are those from `L * 2 ^ h` up to `H * 2 ^ h`. -/
structure Limits (isSigned : Bool) (w h : Nat) (L H : Int) : Prop where
  half_lt : h < w
  low : L ≤ 0
  high : 0 < H
  mem_iff : ∀ v, v ∈ (IRType.integer isSigned w).range ↔ L * 2 ^ h ≤ v ∧ v < H * 2 ^ h

theorem exists_limits (isSigned : Bool) (hh : h < w) : ∃ L H, Limits isSigned w h L H := by
  cases isSigned with
  | true =>
    refine ⟨-2 ^ (w - 1 - h), 2 ^ (w - 1 - h), hh, neg_nonpos.mpr (by positivity), by positivity,
      fun v => ?_⟩
    rw [neg_mul, ← pow_add, Nat.sub_add_cancel (by omega)]
    exact Iff.rfl
  | false =>
    refine ⟨0, 2 ^ (w - h), hh, le_refl 0, by positivity, fun v => ?_⟩
    rw [zero_mul, ← pow_add, Nat.sub_add_cancel hh.le]
    exact Iff.rfl

namespace Limits

variable {L H a b c : Int} (limits : Limits isSigned w h L H)

include limits

theorem wrap_of_le (hlo : L * 2 ^ h ≤ a) (hhi : a < H * 2 ^ h) :
    (IRType.integer isSigned w).wrap a = a :=
  wrap_of_mem (Nat.zero_lt_of_lt limits.half_lt) ((limits.mem_iff a).mpr ⟨hlo, hhi⟩)

theorem ediv_mem (ha : a ∈ (IRType.integer isSigned w).range) : L ≤ a / 2 ^ h ∧ a / 2 ^ h < H := by
  have hpos : (0 : Int) < 2 ^ h := by positivity
  obtain ⟨hlo, hhi⟩ := (limits.mem_iff a).mp ha
  exact ⟨(Int.le_ediv_iff_mul_le hpos).mpr hlo, (Int.ediv_lt_iff_lt_mul hpos).mpr hhi⟩

/-- A carry and a product with a half stay in the type. -/
theorem wrap_sum (ha : 0 ≤ a) (ha' : a < 2 ^ h) (hb : L ≤ b) (hb' : b < H) (hc : 0 ≤ c)
    (hc' : c < 2 ^ h) : (IRType.integer isSigned w).wrap (c + a * b) = c + a * b := by
  obtain ⟨hlo, hhi⟩ := add_mul_mem limits.low limits.high ha ha' hb hb' hc hc'
  exact limits.wrap_of_le hlo hhi

theorem wrap_product (ha : 0 ≤ a) (ha' : a < 2 ^ h) (hb : L ≤ b) (hb' : b < H) :
    (IRType.integer isSigned w).wrap (a * b) = a * b := by
  have h := limits.wrap_sum ha ha' hb hb' (le_refl 0) (by positivity)
  rwa [zero_add] at h

theorem wrap_half (hc : 0 ≤ c) (hc' : c < 2 ^ h) : (IRType.integer isSigned w).wrap c = c := by
  have h := limits.wrap_sum (le_refl 0) (by positivity) limits.low limits.high hc hc'
  rwa [zero_mul, add_zero] at h

theorem wrap_ediv (ha : (IRType.integer isSigned w).wrap a = a) :
    (IRType.integer isSigned w).wrap (a / 2 ^ h) = a / 2 ^ h := by
  have hone : (1 : Int) ≤ 2 ^ h := one_le_pow₀ (by decide)
  have hlow := limits.low
  have hhigh := limits.high
  obtain ⟨hlo, hhi⟩ :=
    limits.ediv_mem (ha ▸ wrap_mem isSigned (Nat.zero_lt_of_lt limits.half_lt) a)
  exact limits.wrap_of_le (by nlinarith) (by nlinarith)

end Limits

end Types

/-! ## Nodes that may be null -/

/-- The value of a node; a null one stands for zero. -/
def NodeRef.value (x : Int) (env : List Int) : NodeRef → Option Int
  | none => some 0
  | some a => a.value x env

/-- The nodes in `facts` have the values given there. -/
def NodesKnown (x : Int) (facts : List (NodeRef × Int)) (env : List Int) : Prop :=
  ∀ fact ∈ facts, NodeRef.value x env fact.1 = some fact.2

section Rules

variable {x u v c p : Int} {w h : Nat} {isSigned : Bool} {facts : List (NodeRef × Int)}
  {node node' : NodeRef} {a : Operand}

theorem NodeRef.stable_value (x : Int) (node : NodeRef) (v : Int) :
    Semantics.Stable fun env => NodeRef.value x env node = some v := by
  cases node with
  | none => exact fun env u h => h
  | some a => exact a.stable_value x v

/-- A node that has stayed null becomes the constant zero. -/
theorem NodeRef.value_getD {env : List Int} (hvalue : NodeRef.value x env node = some v)
    (hzero : (IRType.integer isSigned w).wrap 0 = 0) :
    (node.getD (.cst 0 (.integer isSigned w))).value x env = some v := by
  cases node with
  | none => exact (congrArg some hzero).trans hvalue
  | some a => exact hvalue

theorem NodesKnown.stable (x : Int) (facts : List (NodeRef × Int)) :
    Semantics.Stable (NodesKnown x facts) :=
  fun env u hfacts fact hfact => fact.1.stable_value x fact.2 env u (hfacts fact hfact)

theorem NodesKnown.value {env : List Int} (hfacts : NodesKnown x facts env)
    (hmem : (node, v) ∈ facts) : NodeRef.value x env node = some v := hfacts (node, v) hmem

/-- The node that `m` answers is there where `defined` holds, and stands for `v`. -/
def Yields (x : Int) (facts : List (NodeRef × Int)) (m : Builder Expr NodeRef) (defined : Bool)
    (v : Int) : Prop :=
  (emission x).Emits m (NodesKnown x facts) fun node env =>
    node.isSome = defined ∧ NodeRef.value x env node = some v

theorem yields_assign {e : Expr}
    (he : ∀ env, NodesKnown x facts env → e.eval x env = some v) :
    Yields x facts (some <$> createAssign e) true v := by
  intro code env hcode henv
  obtain ⟨env', hrun, hext, hvalue⟩ := emits_createAssign he code env hcode henv
  exact ⟨env', hrun, hext, rfl, hvalue⟩

theorem yields_pure (hmem : (node, v) ∈ facts) :
    Yields x facts (pure node) node.isSome v :=
  Semantics.Emits.pure fun _ henv => ⟨rfl, henv.value hmem⟩

/-- A step whose node is used further. -/
theorem Yields.bind {β : Type} {m : Builder Expr NodeRef} {f : NodeRef → Builder Expr β}
    {defined : Bool} {Q : β → List Int → Prop} (hm : Yields x facts m defined v)
    (hf : ∀ node : NodeRef, node.isSome = defined →
      (emission x).Emits (f node) (NodesKnown x ((node, v) :: facts)) Q) :
    (emission x).Emits (m >>= f) (NodesKnown x facts) Q := by
  refine Semantics.Emits.bind (NodesKnown.stable x facts) hm fun node code env hcode henv => ?_
  refine hf node henv.2.1 code env hcode fun fact hfact => ?_
  rcases List.mem_cons.mp hfact with rfl | hold
  · exact henv.2.2
  · exact henv.1 fact hold

/-- The same for an assignment. -/
theorem emits_assign_bind {β : Type} {e : Expr} {f : Operand → Builder Expr β}
    {Q : β → List Int → Prop} (he : ∀ env, NodesKnown x facts env → e.eval x env = some v)
    (hf : ∀ a, (emission x).Emits (f a) (NodesKnown x ((some a, v) :: facts)) Q) :
    (emission x).Emits (createAssign e >>= f) (NodesKnown x facts) Q := by
  refine (emits_createAssign he).bind (NodesKnown.stable x facts) fun a code env hcode henv => ?_
  refine hf a code env hcode fun fact hfact => ?_
  rcases List.mem_cons.mp hfact with rfl | hold
  · exact henv.2
  · exact henv.1 fact hold

theorem yields_timesConstant (hmem : (some a, u) ∈ facts)
    (hu : (IRType.integer isSigned w).wrap u = u) (hc : (IRType.integer isSigned w).wrap c = c)
    (hp : (IRType.integer isSigned w).wrap (u * c) = p) :
    Yields x facts (timesConstant (.integer isSigned w) a c) (c ≠ 0) p := by
  subst hp
  unfold timesConstant
  split
  · rename_i hne
    rw [decide_eq_true hne]
    split
    · rename_i hone
      rw [hone, mul_one, hu]
      exact yields_pure hmem
    · refine yields_assign fun env henv => ?_
      have ha : a.value x env = some u := henv.value hmem
      rw [Expr.eval_binary ha rfl, hc, BinaryKind.eval]
  · rename_i hzero
    obtain rfl : c = 0 := not_not.mp hzero
    rw [mul_zero, hc]
    exact Semantics.Emits.pure fun env henv => ⟨rfl, rfl⟩

/-- What is assigned to a node has to be zero where the node is null. -/
theorem yields_onNode {e : Operand → Expr} (hmem : (node, u) ∈ facts)
    (he : ∀ a env, a.value x env = some u → (e a).eval x env = some v) (hzero : u = 0 → v = 0) :
    Yields x facts (onNode node e) node.isSome v := by
  cases node with
  | none =>
    refine Semantics.Emits.pure fun env henv => ⟨rfl, ?_⟩
    have hu : some 0 = some u := henv.value hmem
    rw [hzero (Option.some.inj hu).symm]
    rfl
  | some a => exact yields_assign fun env henv => he a env (henv.value hmem)

theorem yields_addNodes (hmem : (node, u) ∈ facts) (hmem' : (node', v) ∈ facts)
    (hu : (IRType.integer isSigned w).wrap u = u) (hv : (IRType.integer isSigned w).wrap v = v)
    (hp : (IRType.integer isSigned w).wrap (u + v) = p) :
    Yields x facts (addNodes (.integer isSigned w) node node') (node.isSome || node'.isSome)
      p := by
  subst hp
  cases node with
  | some a =>
    cases node' with
    | some b =>
      refine yields_assign fun env henv => ?_
      have ha : a.value x env = some u := henv.value hmem
      have hb : b.value x env = some v := henv.value hmem'
      rw [Expr.eval_binary ha hb, BinaryKind.eval]
    | none =>
      refine Semantics.Emits.pure fun env henv => ⟨rfl, ?_⟩
      have hb : some 0 = some v := henv.value hmem'
      rw [← Option.some.inj hb, add_zero, hu]
      exact henv.value hmem
  | none =>
    refine Semantics.Emits.pure fun env henv => ⟨rfl, ?_⟩
    have ha : some 0 = some u := henv.value hmem
    rw [← Option.some.inj ha, zero_add, hv]
    exact henv.value hmem'

/-- The sum that is left out where there is no low half of the constant. -/
theorem yields_guardedSum (hboth : node.isSome = node'.isSome) (hmem : (node, u) ∈ facts)
    (hmem' : (node', v) ∈ facts) (hu : (IRType.integer isSigned w).wrap u = u)
    (hv : (IRType.integer isSigned w).wrap v = v)
    (hp : (IRType.integer isSigned w).wrap (u + v) = p) :
    Yields x facts (if node.isSome then addNodes (.integer isSigned w) node node' else pure none)
      (node.isSome || node'.isSome) p := by
  have hsum : Yields x facts (addNodes (.integer isSigned w) node node')
    (node.isSome || node'.isSome) p := yields_addNodes hmem hmem' hu hv hp
  cases node with
  | some a => exact hsum
  | none =>
    obtain rfl : node' = none := Option.isNone_iff_eq_none.mp (by simpa using hboth.symm)
    exact hsum

/-! ## The halves of a node -/

variable {L H : Int}

theorem Limits.eval_maskHalf (limits : Limits isSigned w h L H) {env : List Int}
    (ha : a.value x env = some u) :
    (maskHalf (.integer isSigned w) h a).eval x env = some (u % 2 ^ h) := by
  have hpos : (0 : Int) < 2 ^ h := by positivity
  rw [maskHalf, Expr.eval_binary ha rfl, limits.wrap_half (by omega) (by omega), BinaryKind.eval,
    land_mask, limits.wrap_half (Int.emod_nonneg u hpos.ne') (Int.emod_lt_of_pos u hpos)]

theorem Limits.eval_shiftHalf (limits : Limits isSigned w h L H) {env : List Int}
    (ha : a.value x env = some u) (hu : (IRType.integer isSigned w).wrap u = u) :
    (shiftHalf (.integer isSigned w) h a).eval x env = some (u / 2 ^ h) := by
  have hamount : (h : Int) < 2 ^ h := by exact_mod_cast Nat.lt_two_pow_self
  rw [shiftHalf, Expr.eval_binary ha rfl, limits.wrap_half (Int.natCast_nonneg h) hamount,
    BinaryKind.eval, Int.toNat_natCast,
    if_pos ⟨Int.natCast_nonneg h, by exact_mod_cast limits.half_lt⟩, limits.wrap_ediv hu]

/-- The high half of a node. -/
theorem Limits.yields_shiftHalf (limits : Limits isSigned w h L H) (hmem : (node, u) ∈ facts)
    (hu : (IRType.integer isSigned w).wrap u = u) :
    Yields x facts (onNode node (shiftHalf (.integer isSigned w) h)) node.isSome (u / 2 ^ h) :=
  yields_onNode hmem (fun _ _ ha => limits.eval_shiftHalf ha hu) fun hzero => by
    rw [hzero, Int.zero_ediv]

theorem Limits.yields_maskHalf (limits : Limits isSigned w h L H) (hmem : (node, u) ∈ facts) :
    Yields x facts (onNode node (maskHalf (.integer isSigned w) h)) node.isSome (u % 2 ^ h) :=
  yields_onNode hmem (fun _ _ ha => limits.eval_maskHalf ha) fun hzero => by
    rw [hzero, Int.zero_emod]

/-- A low product that is too large for a signed type comes back with the right high half:
the mask takes the sign bits off that the shift has put there. -/
theorem wrap_ediv_emod (hw : 2 * h ≤ w) (p : Int) :
    (IRType.integer isSigned w).wrap p / 2 ^ h % 2 ^ h = p / 2 ^ h % 2 ^ h := by
  have hmod : (IRType.integer isSigned w).wrap p ≡ p [ZMOD 2 ^ h * 2 ^ h] := by
    refine (wrap_modEq isSigned w p).of_dvd ?_
    rw [← pow_add, ← two_mul]
    exact pow_dvd_pow 2 hw
  have hpos : (0 : Int) < 2 ^ h := by positivity
  obtain ⟨k, hk⟩ := hmod.symm.dvd
  have hp : (IRType.integer isSigned w).wrap p = p + 2 ^ h * k * 2 ^ h := by
    linear_combination hk
  rw [hp, Int.add_mul_ediv_right _ _ hpos.ne', Int.add_mul_emod_self_left]

/-- The high half of the low product. -/
theorem Limits.yields_lowCarry (limits : Limits isSigned w h L H) {low : Int} {defined : Bool}
    (hw : 2 * h ≤ w) (hdefined : node.isSome = defined) (hlow : 0 ≤ low)
    (hlow' : low < 2 ^ h * 2 ^ h)
    (hmem : (node, (IRType.integer isSigned w).wrap low / 2 ^ h) ∈ facts) :
    Yields x facts
      (if !(IRType.integer isSigned w).isUnsigned then
        onNode node (maskHalf (.integer isSigned w) h)
      else pure node)
      defined (low / 2 ^ h) := by
  have hpos : (0 : Int) < 2 ^ h := by positivity
  rw [← hdefined]
  cases isSigned with
  | true =>
    have hvalue : (IRType.integer true w).wrap low / 2 ^ h % 2 ^ h = low / 2 ^ h := by
      rw [wrap_ediv_emod hw low]
      exact Int.emod_eq_of_lt (Int.ediv_nonneg hlow hpos.le)
        ((Int.ediv_lt_iff_lt_mul hpos).mpr hlow')
    rw [← hvalue]
    exact limits.yields_maskHalf hmem
  | false =>
    have hsq : (2 : Int) ^ h * 2 ^ h ≤ 2 ^ w := by
      rw [← pow_add, ← two_mul]
      exact pow_le_pow_right₀ (by decide) hw
    have hexact : (IRType.integer false w).wrap low = low :=
      Int.emod_eq_of_lt hlow (lt_of_lt_of_le hlow' hsq)
    rw [hexact] at hmem
    exact yields_pure hmem

end Rules

/-! ## The emitted code -/

section Emitted

variable {isSigned : Bool} {w : Nat} {u v : Int}

/-- The halves of the constant, from the word that it is passed in. -/
theorem constant_halves {h : Nat} (hh : 1 ≤ h) (hhw : h < w) (hle : w ≤ 64)
    (hv : v ∈ (IRType.integer isSigned w).range) :
    Int.land (signedResidue 64 (v % 2 ^ 64).toNat) (2 ^ h - 1) = v % 2 ^ h ∧
      (if (IRType.integer isSigned w).isUnsigned then
        signedResidue 64 ((v % 2 ^ 64).toNat / 2 ^ h : Nat)
      else signedResidue 64 (v % 2 ^ 64).toNat / 2 ^ h) = v / 2 ^ h := by
  have hword : ((v % 2 ^ 64).toNat : Int) = v % 2 ^ 64 :=
    Int.toNat_of_nonneg (Int.emod_nonneg v (by decide))
  rw [land_mask, hword, signedResidue_emod]
  constructor
  · exact (signedResidue_modEq 64 v).of_dvd (pow_dvd_pow 2 (by omega))
  cases isSigned with
  | true =>
    have hfits : signedResidue 64 v = v :=
      signedResidue_of_mem (by decide) (le_trans (neg_le_neg (half_le_half hle)) hv.1)
        (lt_of_lt_of_le hv.2 (half_le_half hle))
    rw [hfits]
    rfl
  | false =>
    obtain ⟨hlo, hhi⟩ := hv
    have hpow : (2 : Int) ^ w ≤ 2 ^ 64 := pow_le_pow_right₀ (by decide) hle
    have hpow' : (2 : Int) ^ 64 ≤ 2 ^ 63 * 2 ^ h := by
      rw [← pow_add]
      exact pow_le_pow_right₀ (by decide) (by omega)
    have hsmall : v / 2 ^ h < 2 ^ 63 :=
      (Int.ediv_lt_iff_lt_mul (by positivity)).mpr
        (lt_of_lt_of_le hhi (le_trans hpow hpow'))
    have hnonneg : 0 ≤ v / 2 ^ h := Int.ediv_nonneg hlo (by positivity)
    rw [show (IRType.integer false w).isUnsigned = true from rfl, if_pos rfl, Int.natCast_div,
      hword, Int.emod_eq_of_lt hlo (lt_of_lt_of_le hhi hpow)]
    push_cast
    refine signedResidue_of_mem (by decide) ?_ hsmall
    exact le_trans (neg_nonpos.mpr (half_pos 64).le) hnonneg

theorem addHighProducts_emits {h : Nat} {L H a b c s r : Int} {u0 u1 : Operand}
    {u0v0hu1v0 : NodeRef} {facts : List (NodeRef × Int)} (limits : Limits isSigned w h L H)
    (hu0 : (some u0, a) ∈ facts) (hu1 : (some u1, b) ∈ facts) (hs : (u0v0hu1v0, s) ∈ facts)
    (ha : 0 ≤ a) (ha' : a < 2 ^ h) (hb : (IRType.integer isSigned w).wrap b = b) (hc : L ≤ c)
    (hc' : c < H) (hcw : (IRType.integer isSigned w).wrap c = c)
    (hsw : (IRType.integer isSigned w).wrap s = s)
    (hr : s / 2 ^ h + (s % 2 ^ h + a * c) / 2 ^ h + b * c = r) :
    (emission u).Emits (addHighProducts (.integer isSigned w) h u0 u1 c u0v0hu1v0)
      (NodesKnown u facts) fun result env =>
        result.value u env = some ((IRType.integer isSigned w).wrap r) := by
  have hpos : (0 : Int) < 2 ^ h := by positivity
  have hw1 := Int.emod_nonneg s hpos.ne'
  have hw1' := Int.emod_lt_of_pos s hpos
  have hsum := limits.wrap_sum ha ha' hc hc' hw1 hw1'
  unfold addHighProducts
  refine (limits.yields_maskHalf hs).bind fun w1 _ => ?_
  refine (limits.yields_shiftHalf (.tail _ hs) hsw).bind fun w2 _ => ?_
  refine (yields_timesConstant (.tail _ (.tail _ hu0)) (limits.wrap_half ha ha') hcw
    (limits.wrap_product ha ha' hc hc')).bind fun u0v1 _ => ?_
  refine (yields_addNodes (.tail _ (.tail _ (.head _))) (.head _) (limits.wrap_half hw1 hw1')
    (limits.wrap_product ha ha' hc hc') hsum).bind fun w1u0v1 _ => ?_
  refine (limits.yields_shiftHalf (.head _) hsum).bind fun w1u0v1h _ => ?_
  refine (yields_timesConstant (.tail _ (.tail _ (.tail _ (.tail _ (.tail _ hu1))))) hb hcw
    rfl).bind fun u1v1 _ => ?_
  refine (yields_addNodes (.tail _ (.head _)) (.tail _ (.tail _ (.tail _ (.tail _ (.head _)))))
    (limits.wrap_ediv hsum) (limits.wrap_ediv hsw) rfl).bind fun w1u0v1hw2 _ => ?_
  refine (yields_addNodes (.head _) (.tail _ (.head _)) (wrap_wrap isSigned w _)
    (wrap_wrap isSigned w _) (wrap_add_wrap isSigned w _ _)).bind fun res _ => ?_
  refine Semantics.Emits.pure fun env henv => ?_
  rw [← hr, add_comm (s / 2 ^ h)]
  exact NodeRef.value_getD (henv.value (.head _)) (limits.wrap_half (le_refl 0) hpos)

/-- The result is the product shifted by twice the half of the width. -/
theorem expandMultHighpart_emits {h : Nat} (hh : w / 2 = h) (hw : 2 ≤ w) (hle : w ≤ 64)
    (hu : u ∈ (IRType.integer isSigned w).range) (hv : v ∈ (IRType.integer isSigned w).range) :
    (emission u).Emits
      (expandMultHighpart .input (v % 2 ^ 64).toNat (.integer isSigned w) w) (NodesKnown u [])
      fun result env => ∃ a, result = .ok a ∧ a.value u env =
        some ((IRType.integer isSigned w).wrap (u * v / (2 ^ h * 2 ^ h))) := by
  have hhw : h < w := by omega
  obtain ⟨L, H, limits⟩ := exists_limits isSigned hhw
  obtain ⟨hv0eq, hv1eq⟩ := constant_halves (by omega) hhw hle hv
  have hpos : (0 : Int) < 2 ^ h := by positivity
  have hu0 := Int.emod_nonneg u hpos.ne'
  have hu0' := Int.emod_lt_of_pos u hpos
  have hv0 := Int.emod_nonneg v hpos.ne'
  have hv0' := Int.emod_lt_of_pos v hpos
  obtain ⟨hu1, hu1'⟩ := limits.ediv_mem hu
  obtain ⟨hv1, hv1'⟩ := limits.ediv_mem hv
  have hlow : u % 2 ^ h * (v % 2 ^ h) < 2 ^ h * 2 ^ h := mul_lt_mul'' hu0' hv0' hu0 hv0
  have hcarry : 0 ≤ u % 2 ^ h * (v % 2 ^ h) / 2 ^ h :=
    Int.ediv_nonneg (mul_nonneg hu0 hv0) hpos.le
  have hcarry' : u % 2 ^ h * (v % 2 ^ h) / 2 ^ h < 2 ^ h :=
    (Int.ediv_lt_iff_lt_mul hpos).mpr hlow
  have hufits : (IRType.integer isSigned w).wrap u = u := wrap_of_mem (by omega) hu
  have hvfits : (IRType.integer isSigned w).wrap v = v := wrap_of_mem (by omega) hv
  have hcross := limits.wrap_product hv0 hv0' hu1 hu1'
  have hsum := limits.wrap_sum hv0 hv0' hu1 hu1' hcarry hcarry'
  rw [mul_comm (v % 2 ^ h) (u / 2 ^ h)] at hcross hsum
  unfold expandMultHighpart
  dsimp only
  rw [hh, hv0eq, hv1eq]
  refine emits_assign_bind (fun env henv => limits.eval_maskHalf rfl) fun u0 => ?_
  refine emits_assign_bind (fun env henv => limits.eval_shiftHalf rfl hufits) fun u1 => ?_
  refine (yields_timesConstant (.tail _ (.head _)) (limits.wrap_half hu0 hu0')
    (limits.wrap_half hv0 hv0') rfl).bind fun u0v0 hu0v0 => ?_
  refine (limits.yields_shiftHalf (.head _) (wrap_wrap isSigned w _)).bind
    fun u0v0h hu0v0h => ?_
  refine (limits.yields_lowCarry (by omega) (hu0v0h.trans hu0v0) (mul_nonneg hu0 hv0) hlow
    (.head _)).bind fun u0v0hU hu0v0hU => ?_
  refine (yields_timesConstant (.tail _ (.tail _ (.tail _ (.head _)))) (limits.wrap_ediv hufits)
    (limits.wrap_half hv0 hv0') hcross).bind fun u1v0 hu1v0 => ?_
  rw [if_neg (by
    rintro ⟨hsome, hnone⟩
    rw [hu0v0hU, ← hu1v0, hnone] at hsome
    exact absurd hsome (by decide))]
  refine (yields_guardedSum (hu0v0hU.trans hu1v0.symm) (.tail _ (.head _)) (.head _)
    (limits.wrap_half hcarry hcarry') hcross hsum).bind fun u0v0hu1v0 _ => ?_
  refine Semantics.Emits.map fun code env hcode henv => ?_
  obtain ⟨env', hrun, hext, hvalue⟩ := addHighProducts_emits limits
    (.tail _ (.tail _ (.tail _ (.tail _ (.tail _ (.tail _ (.head _)))))))
    (.tail _ (.tail _ (.tail _ (.tail _ (.tail _ (.head _)))))) (.head _) hu0 hu0'
    (limits.wrap_ediv hufits) hv1 hv1' (limits.wrap_ediv hvfits) hsum (mul_ediv_sq hpos u v).symm
    code env hcode henv
  exact ⟨env', hrun, hext, _, rfl, hvalue⟩

end Emitted

/-! ## Where the result is the high half -/

/-- The code emitted for the constant `v` runs on `u`, no shift amount reaching the width,
and its result is the high half of the product. -/
def HighPartExact (isSigned : Bool) (w : Nat) (u v : Int) : Prop :=
  let emitted := (expandMultHighpart .input (v % 2 ^ 64).toNat (.integer isSigned w) w).run []
  ∃ a env, emitted.1 = .ok a ∧ (emission u).exec [] emitted.2 = some env ∧
    a.value u env = some ((IRType.integer isSigned w).wrap (u * v / 2 ^ w))

section Exact

variable {isSigned : Bool} {w : Nat} {u v : Int}

theorem highPartExact_iff_wrap {h : Nat} (hh : w / 2 = h) (hw : 2 ≤ w) (hle : w ≤ 64)
    (hu : u ∈ (IRType.integer isSigned w).range) (hv : v ∈ (IRType.integer isSigned w).range) :
    HighPartExact isSigned w u v ↔ u * v / (2 ^ h * 2 ^ h) ≡ u * v / 2 ^ w [ZMOD 2 ^ w] := by
  obtain ⟨env, hrun, -, a, hok, hvalue⟩ := expandMultHighpart_emits hh hw hle hu hv [] [] rfl
    fun _ hmem => absurd hmem List.not_mem_nil
  rw [← wrap_eq_iff isSigned]
  constructor
  · rintro ⟨a', env', hok', hrun', hvalue'⟩
    obtain rfl : a = a' := Except.ok.inj (hok.symm.trans hok')
    obtain rfl : env = env' := Option.some.inj (hrun.symm.trans hrun')
    exact Option.some.inj (hvalue.symm.trans hvalue')
  · intro hwrap
    exact ⟨a, env, hok, hrun, hwrap ▸ hvalue⟩

/-- A product that is too large for its lower bits to be dropped by one shift less. -/
theorem ediv_modEq_iff {N p : Int} (hN : 0 < N) (hlo : -(N * N) ≤ p)
    (hhi : p < 2 * N * (2 * N - 1)) :
    p / N ≡ p / (2 * N) [ZMOD 2 * N] ↔ -N ≤ p ∧ p < N := by
  have hhalf : p / (2 * N) = p / N / 2 := by
    rw [mul_comm, Int.ediv_ediv_of_nonneg hN.le]
  have hlow : -N ≤ p / N := (Int.le_ediv_iff_mul_le hN).mpr (by linarith)
  have hhigh : p / N < 2 * (2 * N - 1) := (Int.ediv_lt_iff_lt_mul hN).mpr (by linarith)
  have hlow' : -N ≤ p ↔ -1 ≤ p / N := by
    rw [Int.le_ediv_iff_mul_le hN]
    omega
  have hhigh' : p < N ↔ p / N < 1 := by
    rw [Int.ediv_lt_iff_lt_mul hN, one_mul]
  rw [hhalf, hlow', hhigh', Int.modEq_iff_dvd]
  generalize p / N = q at *
  constructor
  · intro hdvd
    have hzero := Int.eq_zero_of_abs_lt_dvd hdvd (abs_lt.mpr ⟨by omega, by omega⟩)
    omega
  · intro hq
    exact ⟨0, by omega⟩

theorem mul_mem_of_range (hw : 2 ≤ w) (hu : u ∈ (IRType.integer isSigned w).range)
    (hv : v ∈ (IRType.integer isSigned w).range) :
    -(half w * half w) ≤ u * v ∧ u * v < 2 * half w * (2 * half w - 1) := by
  have hhalf := half_pos w
  cases isSigned with
  | true =>
    obtain ⟨hulo, huhi⟩ := hu
    obtain ⟨hvlo, hvhi⟩ := hv
    have habs : |u * v| ≤ half w * half w := by
      rw [abs_mul]
      exact mul_le_mul (abs_le.mpr ⟨hulo, huhi.le⟩) (abs_le.mpr ⟨hvlo, hvhi.le⟩) (abs_nonneg v)
        (half_pos w).le
    obtain ⟨hlo, hhi⟩ := abs_le.mp habs
    exact ⟨hlo, lt_of_le_of_lt hhi (by nlinarith)⟩
  | false =>
    obtain ⟨hulo, huhi⟩ := hu
    obtain ⟨hvlo, hvhi⟩ := hv
    rw [← two_mul_half (by omega : 0 < w)] at huhi hvhi
    exact ⟨by nlinarith, by nlinarith⟩

/-- At an even width the result is the high half of the product; at an odd one, where the
halves leave a bit over, it is that only while the product fits a signed word. -/
theorem expandMultHighpart_iff (isSigned : Bool) (w : Nat) (u v : Int) (hw : 2 ≤ w)
    (hle : w ≤ 64) (hu : u ∈ (IRType.integer isSigned w).range)
    (hv : v ∈ (IRType.integer isSigned w).range) :
    HighPartExact isSigned w u v ↔ Even w ∨ u * v ∈ signedRange w := by
  rw [highPartExact_iff_wrap rfl hw hle hu hv]
  rcases Nat.even_or_odd w with heven | hodd
  · refine iff_of_true ?_ (.inl heven)
    rw [← pow_add, ← two_mul, Nat.two_mul_div_two_of_even heven]
  · have hsq : (2 : Int) ^ (w / 2) * 2 ^ (w / 2) = half w := by
      rw [← pow_add, ← two_mul, Nat.two_mul_odd_div_two (Nat.odd_iff.mp hodd)]
      rfl
    obtain ⟨hlo, hhi⟩ := mul_mem_of_range hw hu hv
    rw [hsq, ← two_mul_half (by omega : 0 < w), ediv_modEq_iff (half_pos w) hlo hhi]
    exact (or_iff_right (Nat.not_even_iff_odd.mpr hodd)).symm

theorem expandMultHighpart_iff_eight : HighPartExact true 8 (-100) 77 :=
  (expandMultHighpart_iff true 8 (-100) 77 (by decide) (by decide) ⟨by decide, by decide⟩
    ⟨by decide, by decide⟩).mpr (.inl (by decide))

/-- The code for three bits answers four, where the high half of `7 * 7` is six. -/
theorem not_highPartExact : ¬ HighPartExact false 3 7 7 := by
  have hseven : (7 : Int) ∈ (IRType.integer false 3).range := ⟨by decide, by decide⟩
  rw [highPartExact_iff_wrap rfl (by decide) (by decide) hseven hseven]
  decide

end Exact

end Bambu.Constdivmul
