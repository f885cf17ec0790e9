/-
  Bambu.Math.LinkedList

  Linked lists in a store: each node has at most one successor.  A doubly linked list is linked by
  its successors, and its reverse by its predecessors, so that each fact is used in both
  directions.
-/

import Mathlib.Data.List.Basic

namespace Bambu.Math

variable {α : Type}

/-- The links `f` lead through the list, and from its last element to `n`. -/
def LinkedTo (f : α → Option α) : List α → Option α → Prop
  | [], _ => True
  | a :: l, n => f a = l.head?.or n ∧ LinkedTo f l n

/-- The links lead through the list and end with it. -/
abbrev LinkedList (f : α → Option α) (l : List α) : Prop := LinkedTo f l none

/-- The nodes that the links lead through, at most so many. -/
def follow (f : α → Option α) : Nat → Option α → List α
  | 0, _ => []
  | _ + 1, none => []
  | fuel + 1, some a => a :: follow f fuel (f a)

namespace LinkedTo

variable {f g : α → Option α} {l l' : List α} {n : Option α}

theorem append_iff : LinkedTo f (l ++ l') n ↔ LinkedTo f l (l'.head?.or n) ∧ LinkedTo f l' n := by
  induction l with
  | nil => simp [LinkedTo]
  | cons a l ih =>
    rw [List.cons_append, LinkedTo, LinkedTo, ih, and_assoc]
    cases l with
    | nil => simp
    | cons b l => simp

theorem cons_iff {a : α} : LinkedTo f (a :: l) n ↔ f a = l.head?.or n ∧ LinkedTo f l n := Iff.rfl

theorem singleton_iff {a : α} : LinkedTo f [a] n ↔ f a = n := by simp [LinkedTo]

/-- Only the links of the elements matter. -/
theorem congr (h : ∀ a ∈ l, f a = g a) (hl : LinkedTo f l n) : LinkedTo g l n := by
  induction l with
  | nil => trivial
  | cons a l ih =>
    refine ⟨(h a List.mem_cons_self).symm.trans hl.1, ih (fun b hb => ?_) hl.2⟩
    exact h b (List.mem_cons_of_mem a hb)

theorem update [DecidableEq α] {a : α} {x : Option α} (ha : a ∉ l) (hl : LinkedTo f l n) :
    LinkedTo (Function.update f a x) l n :=
  hl.congr fun _ hb => (Function.update_of_ne (ne_of_mem_of_not_mem hb ha) _ _).symm

end LinkedTo

section Edit

variable [DecidableEq α] {f : α → Option α} {l l' : List α} {w : α}

/-- The link of a node, if there is one, is redirected. -/
def redirect (f : α → Option α) : Option α → Option α → α → Option α
  | none, _ => f
  | some a, x => Function.update f a x

omit [DecidableEq α] in
theorem LinkedList.follow {fuel : Nat} (h : LinkedList f l) (hfuel : l.length ≤ fuel) :
    Math.follow f fuel l.head? = l := by
  induction l generalizing fuel with
  | nil => cases fuel <;> rfl
  | cons a l ih =>
    obtain ⟨fuel, rfl⟩ := Nat.exists_eq_succ_of_ne_zero (Nat.ne_of_gt (Nat.lt_of_lt_of_le
      (Nat.succ_pos l.length) hfuel))
    rw [List.head?_cons, Math.follow, h.1, Option.or_none, ih h.2 (Nat.le_of_succ_le_succ hfuel)]

/-- A node is taken out: the one before it is linked to the one behind it. -/
theorem LinkedList.remove (h : LinkedList f (l ++ w :: l')) (hnodup : (l ++ w :: l').Nodup) :
    LinkedList (redirect f l.getLast? l'.head?) (l ++ l') := by
  obtain ⟨hl, hw, hl'⟩ := LinkedTo.append_iff.mp h
  obtain rfl | ⟨l, x, rfl⟩ := l.eq_nil_or_concat'
  · exact hl'
  · -- The last node before it is in neither part.
    rw [List.append_assoc, List.nodup_append] at hnodup
    have hx : x ∉ l := fun hmem => hnodup.2.2 x hmem x (by simp) rfl
    have hx' : x ∉ l' := fun hmem => (List.nodup_cons.mp hnodup.2.1).1 (by simp [hmem])
    rw [List.getLast?_concat, redirect]
    refine LinkedTo.append_iff.mpr ⟨LinkedTo.append_iff.mpr ⟨?_, ?_⟩, hl'.update hx'⟩
    · exact (LinkedTo.append_iff.mp hl).1.update hx
    · rw [LinkedTo.singleton_iff, Function.update_self, Option.or_none]

/-- A new node is put in: it is linked to what is behind it, and what is before it to it. -/
theorem LinkedList.insert (h : LinkedList f (l ++ l')) (hnodup : (l ++ l').Nodup)
    (hw : w ∉ l ++ l') :
    LinkedList (Function.update (redirect f l.getLast? (some w)) w l'.head?) (l ++ w :: l') := by
  obtain ⟨hl, hl'⟩ := LinkedTo.append_iff.mp h
  rw [List.mem_append, not_or] at hw
  have hself : ∀ g : α → Option α, LinkedTo (Function.update g w l'.head?) [w] (l'.head?.or none) :=
    fun g => LinkedTo.singleton_iff.mpr (by rw [Function.update_self, Option.or_none])
  obtain rfl | ⟨l, x, rfl⟩ := l.eq_nil_or_concat'
  · exact LinkedTo.append_iff (l := [w]).mpr ⟨hself f, hl'.update hw.2⟩
  · rw [List.append_assoc, List.nodup_append] at hnodup
    have hx : x ∉ l := fun hmem => hnodup.2.2 x hmem x (by simp) rfl
    have hx' : x ∉ l' := (List.nodup_cons.mp hnodup.2.1).1
    have hxw : x ≠ w := fun heq => hw.1 (by simp [heq])
    have hwl : w ∉ l := fun hmem => hw.1 (by simp [hmem])
    rw [List.getLast?_concat, redirect]
    refine LinkedTo.append_iff.mpr ⟨LinkedTo.append_iff.mpr ⟨?_, ?_⟩,
      LinkedTo.append_iff (l := [w]).mpr ⟨hself _, (hl'.update hx').update hw.2⟩⟩
    · exact ((LinkedTo.append_iff.mp hl).1.update hx).update hwl
    · rw [LinkedTo.singleton_iff, Function.update_of_ne hxw, Function.update_self]
      rfl

end Edit

end Bambu.Math
