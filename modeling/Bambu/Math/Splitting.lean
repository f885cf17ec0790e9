/-
  Bambu.Math.Splitting

  Texts cut at the occurrences of a separator, where only the first character of each occurrence
  is left out.

  For a separator of one character this is `List.splitOn` (`pieces_singleton`).  The pieces are as
  long as the text without the characters left out (`sum_length_pieces`), so that of a longer
  separator something stays in the pieces.
-/

import Mathlib.Algebra.BigOperators.Group.List.Basic
import Mathlib.Algebra.Ring.Nat

namespace Bambu.Math

variable {α : Type} {sep rest e : List α} {a : α}

theorem not_prefix_of_notMem (hsep : sep ≠ []) (h : a ∉ sep) : ¬ sep <+: a :: rest := by
  intro hpre
  obtain ⟨s, more, rfl⟩ := List.exists_cons_of_ne_nil hsep
  rw [List.cons_prefix_cons] at hpre
  exact h (hpre.1 ▸ List.mem_cons_self)

variable [DecidableEq α]

/-- The place of the first occurrence of a separator. -/
def firstPlace (sep : List α) : List α → Option Nat
  | [] => if sep = [] then some 0 else none
  | a :: rest => if sep <+: a :: rest then some 0 else (firstPlace sep rest).map (· + 1)

/-- The length of what stands before the first occurrence. -/
def pieceLength (sep rest : List α) : Nat := (firstPlace sep rest).getD rest.length

theorem pieceLength_cons (h : ¬ sep <+: a :: rest) :
    pieceLength sep (a :: rest) = pieceLength sep rest + 1 := by
  unfold pieceLength
  rw [firstPlace, if_neg h]
  cases firstPlace sep rest <;> rfl

theorem pieceLength_of_isPrefix (h : sep <+: rest) : pieceLength sep rest = 0 := by
  unfold pieceLength
  cases rest with
  | nil => rw [firstPlace, if_pos (List.prefix_nil.mp h)]; rfl
  | cons a rest => rw [firstPlace, if_pos h]; rfl

theorem pieceLength_le (sep rest : List α) : pieceLength sep rest ≤ rest.length := by
  induction rest with
  | nil =>
    rw [pieceLength, firstPlace]
    split <;> exact Nat.le_refl 0
  | cons a rest ih =>
    by_cases h : sep <+: a :: rest
    · rw [pieceLength_of_isPrefix h]
      exact Nat.zero_le _
    · rw [pieceLength_cons h]
      exact Nat.succ_le_succ ih

/-- The pieces between the occurrences, each of which is left after its first character. -/
def pieces (sep rest : List α) : List (List α) :=
  if pieceLength sep rest < rest.length then
    rest.take (pieceLength sep rest) :: pieces sep (rest.drop (pieceLength sep rest + 1))
  else [rest]
termination_by rest.length
decreasing_by
  rw [List.length_drop]
  omega

theorem pieces_nil (sep : List α) : pieces sep [] = [[]] := by
  rw [pieces, List.length_nil, if_neg (Nat.not_lt_zero _)]

theorem pieces_ne_nil (sep rest : List α) : pieces sep rest ≠ [] := by
  rw [pieces]
  split <;> exact List.cons_ne_nil _ _

/-- At an occurrence the piece before it ends. -/
theorem pieces_of_isPrefix (h : sep <+: a :: rest) :
    pieces sep (a :: rest) = [] :: pieces sep rest := by
  rw [pieces, pieceLength_of_isPrefix h, List.length_cons, if_pos (Nat.succ_pos _)]
  rfl

/-- A character that starts no occurrence belongs to the first piece. -/
theorem pieces_cons (h : ¬ sep <+: a :: rest) :
    pieces sep (a :: rest) = (pieces sep rest).modifyHead (a :: ·) := by
  rw [pieces.eq_def sep (a :: rest), pieces.eq_def sep rest, pieceLength_cons h, List.length_cons]
  by_cases hlt : pieceLength sep rest < rest.length
  · rw [if_pos hlt, if_pos (Nat.succ_lt_succ hlt)]
    rfl
  · rw [if_neg hlt, if_neg (by omega)]
    rfl

/-- The first piece starts with the first character. -/
theorem exists_pieces_cons (h : ¬ sep <+: a :: rest) :
    ∃ piece more, pieces sep (a :: rest) = (a :: piece) :: more := by
  obtain ⟨piece, more, heq⟩ := List.exists_cons_of_ne_nil (pieces_ne_nil sep rest)
  exact ⟨piece, more, by rw [pieces_cons h, heq]; rfl⟩

theorem pieces_append (hsep : sep ≠ []) (h : ∀ a ∈ e, a ∉ sep) (rest : List α) :
    pieces sep (e ++ rest) = (pieces sep rest).modifyHead (e ++ ·) := by
  induction e with
  | nil =>
    obtain ⟨piece, more, heq⟩ := List.exists_cons_of_ne_nil (pieces_ne_nil sep rest)
    rw [List.nil_append, heq]
    rfl
  | cons a e ih =>
    rw [List.cons_append, pieces_cons (not_prefix_of_notMem hsep (h a List.mem_cons_self)),
      ih fun b hb => h b (List.mem_cons_of_mem a hb), List.modifyHead_modifyHead]
    rfl

/-- Without an occurrence there is one piece. -/
theorem pieces_of_notMem (hsep : sep ≠ []) (h : ∀ a ∈ e, a ∉ sep) : pieces sep e = [e] := by
  have hone := pieces_append hsep h []
  rw [List.append_nil, pieces_nil] at hone
  simpa using hone

/-- For one character the pieces are those that the library cuts. -/
theorem pieces_singleton (s : α) (rest : List α) : pieces [s] rest = rest.splitOn s := by
  induction rest with
  | nil => rw [pieces_nil, List.splitOn_nil]
  | cons a rest ih =>
    rw [List.splitOn_cons_eq_if_modifyHead]
    by_cases h : a = s
    · subst h
      have hpre : [a] <+: a :: rest := ⟨rest, rfl⟩
      rw [pieces_of_isPrefix hpre, if_pos (beq_self_eq_true a), ih]
    · have hpre : ¬ [s] <+: a :: rest := by
        rw [List.cons_prefix_cons]
        exact fun hs => h hs.1.symm
      rw [pieces_cons hpre, if_neg (by simpa using h), ih]

/-- Every piece but the last one is followed by one character that is left out. -/
theorem sum_length_pieces (sep rest : List α) :
    ((pieces sep rest).map List.length).sum + (pieces sep rest).length = rest.length + 1 := by
  induction hn : rest.length using Nat.strongRecOn generalizing rest with
  | ind n ih =>
    have hle := pieceLength_le sep rest
    rw [pieces]
    split
    · rename_i hlt
      have hshort : (rest.drop (pieceLength sep rest + 1)).length < n := by
        rw [List.length_drop]
        omega
      have hdrop := ih _ hshort (rest.drop (pieceLength sep rest + 1)) rfl
      rw [List.length_drop] at hdrop
      simp only [List.map_cons, List.sum_cons, List.length_cons, List.length_take]
      omega
    · simp [hn]

end Bambu.Math
