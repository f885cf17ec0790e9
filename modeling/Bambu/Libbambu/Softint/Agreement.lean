/-
  Bambu.Libbambu.Softint.Agreement

  The non-restoring, the align-and-subtract and the Newton-Raphson dividers stand in for
  each other: which of them is linked changes no quotient and no remainder.
-/

import Bambu.Libbambu.Softint.AlignSubtract
import Bambu.Libbambu.Softint.NewtonRaphson
import Bambu.Libbambu.Softint.NonRestoring

namespace Bambu.Libbambu.Softint

variable {n m : Nat} {div mod div' mod' : BitVec n → BitVec m → BitVec n}

/-- The truncated quotient, and the remainder with the sign of the dividend. -/
def Truncates (div mod : BitVec n → BitVec m → BitVec n) : Prop :=
  ∀ u v, v ≠ 0 → div u v = BitVec.ofInt n (u.toInt.tdiv v.toInt) ∧
    mod u v = BitVec.ofInt n (u.toInt.tmod v.toInt)

/-- The same words for every divisor but zero.  They make up the dividend, also where the
quotient does not fit its type. -/
def Interchangeable (div mod div' mod' : BitVec n → BitVec m → BitVec n) : Prop :=
  ∀ u v, v ≠ 0 → div u v = div' u v ∧ mod u v = mod' u v ∧
    div u v * v.signExtend n + mod u v = u

theorem Truncates.interchangeable (h : Truncates div mod) (h' : Truncates div' mod') :
    Interchangeable div mod div' mod' := by
  intro u v hv
  obtain ⟨hdiv, hmod⟩ := h u v hv
  obtain ⟨hdiv', hmod'⟩ := h' u v hv
  refine ⟨hdiv.trans hdiv'.symm, hmod.trans hmod'.symm, ?_⟩
  rw [hdiv, hmod, BitVec.signExtend, ← BitVec.ofInt_mul, ← BitVec.ofInt_add, Int.mul_comm,
    Int.mul_tdiv_add_tmod, BitVec.ofInt_toInt]

end Bambu.Libbambu.Softint
