/-
  Bambu.IRAnalysis.Constdivmul.Emission

  The statements that the lowering of multiplications and divisions by constants puts
  before the statement it rewrites, and what they compute.

  A value is the integer that its type gives to the word.  Operations wrap around to the
  type of their result, and a shift has no value when its amount is not below the width.
-/

import Bambu.Math.Bitwise
import Bambu.Math.Residue
import Bambu.Math.StraightLine

namespace Bambu.Constdivmul

open Bambu.Math Bambu.Math.StraightLine

inductive IRType
  | boolean
  | integer (isSigned : Bool) (bits : Nat)
  deriving DecidableEq, Repr

namespace IRType

/-- `ir_helper::Size`. -/
def size : IRType → Nat
  | boolean => 1
  | integer _ bits => bits

/-- `ir_helper::IsUnsignedIntegerType`. -/
def isUnsigned : IRType → Bool
  | boolean => false
  | integer isSigned _ => !isSigned

/-- `CreateUnsigned`. -/
def unsigned (type : IRType) : IRType := integer false type.size

/-- The value of the type with the low bits of `value`. -/
def wrap : IRType → Int → Int
  | boolean, value => value % 2
  | integer true bits, value => signedResidue bits value
  | integer false bits, value => value % 2 ^ bits

end IRType

/-- `input` is the first operand of the rewritten statement, `ssa` what a line assigns. -/
inductive Operand
  | input
  | cst (value : Int) (type : IRType)
  | ssa (line : Nat)
  deriving DecidableEq, Repr

inductive UnaryKind
  | neg
  | nop
  deriving DecidableEq, Repr

inductive BinaryKind
  | add
  | sub
  | mul
  | bitAnd
  | shr
  | lt
  | eq
  deriving DecidableEq, Repr

/-- The right-hand side of an assignment; `operand` is a copy. -/
inductive Expr
  | operand (a : Operand)
  | unary (type : IRType) (kind : UnaryKind) (a : Operand)
  | binary (type : IRType) (kind : BinaryKind) (a b : Operand)
  | select (type : IRType) (cond a b : Operand)
  deriving DecidableEq, Repr

/-- `CreateAssignStmt` and `PushBefore`. -/
def createAssign (e : Expr) : Builder Expr Operand := Operand.ssa <$> assign e

/-! ## What the statements compute -/

def UnaryKind.eval (type : IRType) (a : Int) : UnaryKind → Int
  | neg => type.wrap (-a)
  | nop => type.wrap a

def BinaryKind.eval (type : IRType) (a b : Int) : BinaryKind → Option Int
  | add => some (type.wrap (a + b))
  | sub => some (type.wrap (a - b))
  | mul => some (type.wrap (a * b))
  | bitAnd => some (type.wrap (Int.land a b))
  | shr => if 0 ≤ b ∧ b < type.size then some (type.wrap (a / 2 ^ b.toNat)) else none
  | lt => some (if a < b then 1 else 0)
  | eq => some (if a = b then 1 else 0)

/-- The value of an operand; `x` is that of `input`. -/
def Operand.value (x : Int) (env : List Int) : Operand → Option Int
  | input => some x
  | cst value type => some (type.wrap value)
  | ssa line => env[line]?

def Expr.eval (x : Int) (env : List Int) : Expr → Option Int
  | operand a => a.value x env
  | unary type kind a => (a.value x env).map fun a => kind.eval type a
  | binary type kind a b =>
    (a.value x env).bind fun a => (b.value x env).bind fun b => kind.eval type a b
  | select type cond a b =>
    (cond.value x env).bind fun cond => (a.value x env).bind fun a => (b.value x env).map fun b =>
      type.wrap (if cond ≠ 0 then a else b)

section Lines

variable {x : Int} {env : List Int}

theorem Operand.stable_value (x : Int) (a : Operand) (v : Int) :
    Semantics.Stable fun env => a.value x env = some v := by
  intro env u h
  cases a with
  | input => exact h
  | cst value type => exact h
  | ssa line => exact Semantics.stable_getElem? line v env u h

theorem Expr.eval_unary {type : IRType} {kind : UnaryKind} {a : Operand} {va : Int}
    (ha : a.value x env = some va) :
    (Expr.unary type kind a).eval x env = some (kind.eval type va) := by
  rw [Expr.eval, ha]
  rfl

theorem Expr.eval_binary {type : IRType} {kind : BinaryKind} {a b : Operand} {va vb : Int}
    (ha : a.value x env = some va) (hb : b.value x env = some vb) :
    (Expr.binary type kind a b).eval x env = kind.eval type va vb := by
  rw [Expr.eval, ha, hb]
  rfl

theorem Expr.eval_select {type : IRType} {cond a b : Operand} {vc va vb : Int}
    (hc : cond.value x env = some vc) (ha : a.value x env = some va)
    (hb : b.value x env = some vb) :
    (Expr.select type cond a b).eval x env = some (type.wrap (if vc ≠ 0 then va else vb)) := by
  rw [Expr.eval, hc, ha, hb]
  rfl

end Lines

/-- The emitted code on an operand `x`. -/
def emission (x : Int) : Semantics Expr Int where
  step := fun env e => e.eval x env
  step_append := by
    intro env e v u h
    cases e with
    | operand a => exact a.stable_value x v env u h
    | unary type kind a =>
      obtain ⟨va, ha, rfl⟩ := Option.map_eq_some_iff.mp h
      exact Expr.eval_unary (a.stable_value x va env u ha)
    | binary type kind a b =>
      obtain ⟨va, ha, h⟩ := Option.bind_eq_some_iff.mp h
      obtain ⟨vb, hb, h⟩ := Option.bind_eq_some_iff.mp h
      rw [Expr.eval_binary (a.stable_value x va env u ha) (b.stable_value x vb env u hb)]
      exact h
    | select type cond a b =>
      obtain ⟨vc, hc, h⟩ := Option.bind_eq_some_iff.mp h
      obtain ⟨va, ha, h⟩ := Option.bind_eq_some_iff.mp h
      obtain ⟨vb, hb, rfl⟩ := Option.map_eq_some_iff.mp h
      exact Expr.eval_select (cond.stable_value x vc env u hc) (a.stable_value x va env u ha)
        (b.stable_value x vb env u hb)

/-! ## Line by line -/

/-- The operands in `facts` have the values given there. -/
def Known (x : Int) (facts : List (Operand × Int)) (env : List Int) : Prop :=
  ∀ fact ∈ facts, fact.1.value x env = some fact.2

theorem Known.stable (x : Int) (facts : List (Operand × Int)) :
    Semantics.Stable (Known x facts) :=
  fun env u h fact hfact => fact.1.stable_value x fact.2 env u (h fact hfact)

theorem Known.value {x : Int} {facts : List (Operand × Int)} {env : List Int}
    (h : Known x facts env) {a : Operand} {v : Int} (hmem : (a, v) ∈ facts) :
    a.value x env = some v := h (a, v) hmem

/-- After `facts` the code `m` runs, and its right-hand side has the value `v`. -/
def Computes (x : Int) (facts : List (Operand × Int)) (m : Builder Expr Expr) (v : Int) : Prop :=
  (emission x).Emits m (Known x facts) fun e env => e.eval x env = some v

section Rules

variable {x v : Int} {facts : List (Operand × Int)} {e : Expr}

theorem Computes.pure (h : ∀ env, Known x facts env → e.eval x env = some v) :
    Computes x facts (pure e) v := Semantics.Emits.pure h

/-- The left-hand side of an assignment stands for what its right-hand side computes. -/
theorem emits_createAssign {P : List Int → Prop} (h : ∀ env, P env → e.eval x env = some v) :
    (emission x).Emits (createAssign e) P fun a env => a.value x env = some v := by
  intro code env hcode henv
  exact Semantics.Emits.assign (S := emission x) h code env hcode henv

theorem Computes.assign {u : Int} {f : Operand → Builder Expr Expr}
    (h : ∀ env, Known x facts env → e.eval x env = some u)
    (hf : ∀ a, Computes x ((a, u) :: facts) (f a) v) :
    Computes x facts (createAssign e >>= f) v := by
  refine (emits_createAssign h).bind (Known.stable x facts) fun a code env hcode henv => ?_
  refine hf a code env hcode fun fact hfact => ?_
  rcases List.mem_cons.mp hfact with rfl | hold
  · exact henv.2
  · exact henv.1 fact hold

/-- Code whose right-hand side is used further. -/
theorem Computes.bind {u : Int} {m : Builder Expr Expr} {f : Expr → Builder Expr Expr}
    (hm : Computes x facts m u)
    (hf : ∀ e, (emission x).Emits (f e) (fun env => Known x facts env ∧ e.eval x env = some u)
      fun e env => e.eval x env = some v) :
    Computes x facts (m >>= f) v := Semantics.Emits.bind (Known.stable x facts) hm hf

end Rules

end Bambu.Constdivmul
