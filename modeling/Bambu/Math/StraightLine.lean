/-
  Bambu.Math.StraightLine

  Straight-line code and the programs that emit it.  Each line computes one value from
  those of the lines before it, and a value never changes afterwards.

  `Emits` is a triple about an emitting program: run on the values of the code so far,
  what it appends runs as well, and then the postcondition holds.  A precondition that is
  `Stable` survives what is emitted, so that a proof goes line by line and collects what
  each line computes.
-/

import Mathlib.Data.List.Basic

namespace Bambu.Math.StraightLine

/-- What an instruction computes from the values of the lines before it. -/
structure Semantics (I V : Type*) where
  step : List V → I → Option V
  /-- Later lines do not change it. -/
  step_append : ∀ {env : List V} {i : I} {v : V} (u : V), step env i = some v →
    step (env ++ [u]) i = some v

/-- A program that appends lines to the code. -/
abbrev Builder (I α : Type) := StateM (List I) α

variable {I V α β : Type}

/-- The number of the line that `i` becomes. -/
def assign (i : I) : Builder I Nat := fun code => (code.length, code ++ [i])

namespace Semantics

variable (S : Semantics I V)

/-- Runs the code after lines with the values `env`. -/
def exec : List V → List I → Option (List V)
  | env, [] => some env
  | env, i :: code => (S.step env i).bind fun v => exec (env ++ [v]) code

theorem exec_append (env : List V) (code code' : List I) :
    S.exec env (code ++ code') = (S.exec env code).bind fun env' => S.exec env' code' := by
  induction code generalizing env with
  | nil => rfl
  | cons i code ih =>
    rw [List.cons_append, exec, exec, Option.bind_assoc]
    congr 1
    funext v
    exact ih _

theorem exec_snoc {code : List I} {env : List V} {i : I} {v : V}
    (hcode : S.exec [] code = some env) (hstep : S.step env i = some v) :
    S.exec [] (code ++ [i]) = some (env ++ [v]) := by
  rw [exec_append, hcode, Option.bind_some, exec, hstep]
  rfl

theorem length_exec {code : List I} : ∀ {env env' : List V}, S.exec env code = some env' →
    env'.length = env.length + code.length := by
  induction code with
  | nil =>
    intro env env' h
    injection h with h
    rw [h]
    rfl
  | cons i code ih =>
    intro env env' h
    obtain ⟨v, -, hrest⟩ := Option.bind_eq_some_iff.mp h
    rw [ih hrest, List.length_append, List.length_singleton, List.length_cons]
    omega

/-- The values after more lines. -/
inductive Extends : List V → List V → Prop
  | refl (env : List V) : Extends env env
  | snoc {env env' : List V} (v : V) : Extends env env' → Extends env (env' ++ [v])

theorem Extends.trans {env₁ env₂ env₃ : List V} (h : Extends env₁ env₂) (h' : Extends env₂ env₃) :
    Extends env₁ env₃ := by
  induction h' with
  | refl => exact h
  | snoc v _ ih => exact ih.snoc v

/-- A condition on values that later lines do not change. -/
def Stable (P : List V → Prop) : Prop := ∀ (env : List V) (v : V), P env → P (env ++ [v])

theorem Stable.extends {P : List V → Prop} (hP : Stable P) {env env' : List V}
    (h : Extends env env') (henv : P env) : P env' := by
  induction h with
  | refl => exact henv
  | snoc v _ ih => exact hP _ v ih

theorem Stable.and {P Q : List V → Prop} (hP : Stable P) (hQ : Stable Q) :
    Stable fun env => P env ∧ Q env := fun env v h => ⟨hP env v h.1, hQ env v h.2⟩

theorem stable_getElem? (n : Nat) (v : V) : Stable fun env => env[n]? = some v := by
  intro env u h
  have hlt : n < env.length := (List.getElem?_eq_some_iff.mp h).1
  rw [List.getElem?_append_left hlt]
  exact h

theorem stable_step (i : I) (v : V) : Stable fun env => S.step env i = some v :=
  fun _ u h => S.step_append u h

/-- From values with `P`, the emitted code runs, and its values have `Q`. -/
def Emits (m : Builder I α) (P : List V → Prop) (Q : α → List V → Prop) : Prop :=
  ∀ code env, S.exec [] code = some env → P env →
    ∃ env', S.exec [] (m.run code).2 = some env' ∧ Extends env env' ∧ Q (m.run code).1 env'

variable {S} {P : List V → Prop}

theorem Emits.pure {Q : α → List V → Prop} {a : α} (h : ∀ env, P env → Q a env) :
    S.Emits (Pure.pure a) P Q := fun _ env hcode henv => ⟨env, hcode, .refl env, h env henv⟩

theorem Emits.bind {m : Builder I α} {f : α → Builder I β} {Q : α → List V → Prop}
    {R : β → List V → Prop} (hP : Stable P) (hm : S.Emits m P Q)
    (hf : ∀ a, S.Emits (f a) (fun env => P env ∧ Q a env) R) : S.Emits (m >>= f) P R := by
  intro code env hcode henv
  obtain ⟨env₁, hrun₁, hext₁, hQ⟩ := hm code env hcode henv
  obtain ⟨env₂, hrun₂, hext₂, hR⟩ := hf _ _ env₁ hrun₁ ⟨hP.extends hext₁ henv, hQ⟩
  exact ⟨env₂, hrun₂, hext₁.trans hext₂, hR⟩

theorem Emits.map {m : Builder I α} {f : α → β} {Q : β → List V → Prop}
    (hm : S.Emits m P fun a => Q (f a)) : S.Emits (f <$> m) P Q := hm

/-- One line: it computes `v`, and its number stands for `v` from then on. -/
theorem Emits.assign {i : I} {v : V} (hstep : ∀ env, P env → S.step env i = some v) :
    S.Emits (assign i) P fun n env => env[n]? = some v := by
  intro code env hcode henv
  refine ⟨env ++ [v], S.exec_snoc hcode (hstep env henv), .snoc v (.refl env), ?_⟩
  have hlength : code.length = env.length := by
    rw [S.length_exec hcode]
    exact (Nat.zero_add _).symm
  show (env ++ [v])[code.length]? = some v
  rw [hlength, List.getElem?_concat_length]

end Semantics

end Bambu.Math.StraightLine
