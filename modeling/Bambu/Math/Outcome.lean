/-
  Bambu.Math.Outcome

  Computations that may fail: what holds of each result, and when there is one.
-/

import Mathlib.Logic.Basic

namespace Bambu.Math

variable {ε α β : Type} {A : Prop} {x : Except ε α} {P Q : α → Prop} {R : β → Prop}

/-- Each result satisfies `P`, and under the assumption there is a result. -/
structure Meets (A : Prop) (x : Except ε α) (P : α → Prop) : Prop where
  sound : ∀ r, x = .ok r → P r
  returns : A → ∃ r, x = .ok r

namespace Meets

theorem ok {r : α} (h : P r) : Meets A (.ok r : Except ε α) P :=
  ⟨fun r' heq => by cases heq; exact h, fun _ => ⟨r, rfl⟩⟩

theorem of_eq {r : α} (hx : x = .ok r) (h : P r) : Meets A x P := hx ▸ ok h

theorem error {e : ε} (h : ¬ A) : Meets A (.error e : Except ε α) P :=
  ⟨fun _ heq => (by cases heq), fun hA => absurd hA h⟩

theorem mono (h : Meets A x P) (hPQ : ∀ r, P r → Q r) : Meets A x Q :=
  ⟨fun r hr => hPQ r (h.sound r hr), h.returns⟩

/-- A result under a weaker assumption is one under the assumption. -/
theorem of_imp {A' : Prop} (h : Meets A' x P) (hA : A → A') : Meets A x P :=
  ⟨h.sound, fun ha => h.returns (hA ha)⟩

theorem bind {f : α → Except ε β} (h : Meets A x P) (hf : ∀ r, P r → Meets A (f r) R) :
    Meets A (x.bind f) R := by
  cases x with
  | error e => exact ⟨fun _ heq => (by cases heq), fun hA => by
      obtain ⟨r, hr⟩ := h.returns hA
      cases hr⟩
  | ok r => exact hf r (h.sound r rfl)

theorem map {f : α → β} (h : Meets A x P) (hf : ∀ r, P r → R (f r)) : Meets A (x.map f) R := by
  cases x with
  | error e => exact ⟨fun _ heq => (by cases heq), fun hA => by
      obtain ⟨r, hr⟩ := h.returns hA
      cases hr⟩
  | ok r => exact ok (hf r (h.sound r rfl))

end Meets

/-! ## Loops -/

section Loop

variable {f : β → α → Except ε β} {I : List α → β → Prop} {l : List α} {b : β}

theorem foldlM_ok_from
    (step : ∀ done b, ∀ a ∈ l, I done b → ∃ b', f b a = .ok b' ∧ I (done ++ [a]) b')
    {done : List α} (h : I done b) : ∃ r, l.foldlM f b = .ok r ∧ I (done ++ l) r := by
  induction l generalizing done b with
  | nil => exact ⟨b, rfl, by rwa [List.append_nil]⟩
  | cons a l ih =>
    obtain ⟨b', hb', hI⟩ := step done b a List.mem_cons_self h
    obtain ⟨r, hr, hend⟩ := ih (fun done b x hx => step done b x (List.mem_cons_of_mem a hx)) hI
    rw [List.append_assoc] at hend
    refine ⟨r, ?_, hend⟩
    rw [List.foldlM_cons, hb']
    exact hr

/-- What each round takes from the elements before it to those up to its own holds at the end. -/
theorem foldlM_ok (step : ∀ done b, ∀ a ∈ l, I done b → ∃ b', f b a = .ok b' ∧ I (done ++ [a]) b')
    (h : I [] b) : ∃ r, l.foldlM f b = .ok r ∧ I l r := foldlM_ok_from step h

end Loop

end Bambu.Math
