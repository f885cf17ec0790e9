/-
  Bambu.Algorithms.CliqueCovering.DsaturLists

  `dsatur_coloring`: the vertices without a color are kept in doubly linked lists, one for each
  number of colors among the neighbours, and the next vertex is the first of the last list that is
  not empty.

  The object that is allocated for a vertex is identified with the vertex.  Whatever the case
  analysis of the code on the ends of a list, its effect is one change of the links.
-/

import Bambu.Algorithms.CliqueCovering.MarkedColoring
import Bambu.Math.LinkedList
import Mathlib.Order.Interval.Finset.Nat

namespace Bambu
namespace CliqueCovering

open Bambu.Math

/-- `dsatur_coloring_helper`, with the local variables of `SeqColor`. -/
structure Dsatur where
  satur_to_list : List (Option Nat)
  vertex_to_satur : Nat → Nat
  vertex_to_iter : Nat → Option Nat
  color_set : Nat → Finset Nat
  CM : Nat → Nat
  prev : Nat → Option Nat
  next : Nat → Option Nat
  maxsatur : Nat
  maxclr : Nat

namespace Dsatur

section Model

variable (G : ConflictGraph)

def degree (v : Nat) : Nat := (G.adjacent_vertices v).length

/-- `dsatur_degree_compare_functor` -/
def compareDegree (v1 v2 : Nat) : Bool := degree G v1 ≥ degree G v2

/-- `dsatur_degree_predicate_functor` -/
def DPF (w v1 : Nat) : Bool := degree G v1 < degree G w

/-- The loop of the constructor, over the vertices by their degree. -/
def linkAll : List Nat → Option Nat → Dsatur → Dsatur
  | [], _, st => st
  | curr_vert :: rest, last, st =>
    let st :=
      match last with
      | none => { st with satur_to_list := [some curr_vert] }
      | some last =>
        { st with
          next := Function.update st.next last (some curr_vert)
          prev := Function.update st.prev curr_vert (some last) }
    linkAll rest (some curr_vert)
      { st with vertex_to_iter := Function.update st.vertex_to_iter curr_vert (some curr_vert) }

/-- What the constructor leaves, and the start of `SeqColor`. -/
def init (stable_sort : (Nat → Nat → Bool) → List Nat → List Nat) : Dsatur :=
  linkAll (stable_sort (compareDegree G) (List.range G.num_node)) none
    { satur_to_list := [none]
      vertex_to_satur := fun _ => 0
      vertex_to_iter := fun _ => none
      color_set := fun _ => ∅
      CM := fun _ => 0
      prev := fun _ => none
      next := fun _ => none
      maxsatur := 0
      maxclr := 0 }

/-- `satur_to_list[satur] = head`; none is an index outside the vector. -/
def setList (satur : Nat) (head : Option Nat) (st : Dsatur) : Option Dsatur :=
  if satur < st.satur_to_list.length then
    some { st with satur_to_list := st.satur_to_list.set satur head }
  else none

/-- The scan for the last list that is not empty, and its first vertex.  Below the first list the
index would wrap around. -/
def scan (lists : List (Option Nat)) : Nat → Option (Nat × Nat)
  | 0 => (lists[0]?).bind fun head => head.map fun v => (0, v)
  | maxsatur + 1 =>
    (lists[maxsatur + 1]?).bind fun head =>
      match head with
      | some v => some (maxsatur + 1, v)
      | none => scan lists maxsatur

/-- The first vertex of its list is taken out. -/
def takeFirst (maxsatur v : Nat) (st : Dsatur) : Option Dsatur :=
  (setList maxsatur (st.next v) { st with maxsatur := maxsatur }).map fun st =>
    { st with
      prev := redirect st.prev (st.next v) none
      vertex_to_iter := Function.update st.vertex_to_iter v none }

/-- The minimum color that is not in a set. -/
def leastColor (colors : Finset Nat) : Nat := Nat.find (Infinite.exists_notMem_finset colors)

/-- The vertex gets its color. -/
def giveColor (v : Nat) (st : Dsatur) : Dsatur :=
  let color := leastColor (st.color_set v)
  { st with
    color_set := Function.update st.color_set v (insert color (st.color_set v))
    maxclr := if st.maxclr < color then color else st.maxclr
    CM := Function.update st.CM v color }

/-- A vertex is removed from its list. -/
def unlink (w_satur w : Nat) (st : Dsatur) : Option Dsatur :=
  match st.prev w, st.next w with
  | none, none => setList w_satur none st
  | none, some y =>
    setList w_satur (some y) { st with prev := Function.update st.prev y none }
  | some x, none => some { st with next := Function.update st.next x none }
  | some x, some y =>
    some { st with
      next := Function.update st.next x (some y)
      prev := Function.update st.prev y (some x) }

/-- A new list, when the saturation is a new maximum. -/
def grow (w_satur : Nat) (st : Dsatur) : Dsatur :=
  if st.maxsatur < w_satur then
    { st with
      maxsatur := w_satur
      satur_to_list := st.satur_to_list.take w_satur ++
        List.replicate (w_satur - st.satur_to_list.length) none ++ [none] }
  else st

/-- The loop to the last vertex that is not of lower degree, for so many vertices. -/
def findPlace (next : Nat → Option Nat) (w : Nat) : Nat → Nat → Option Nat
  | 0, _ => none
  | fuel + 1, iter =>
    match next iter with
    | none => some iter
    | some y => if DPF G w y then some iter else findPlace next w fuel y

/-- A vertex is inserted into a list. -/
def insertByDegree (w_satur w : Nat) (st : Dsatur) : Option Dsatur :=
  (st.satur_to_list[w_satur]?).bind fun head =>
    match head with
    | none =>
      setList w_satur (some w) { st with
        prev := Function.update st.prev w none
        next := Function.update st.next w none }
    | some h =>
      if DPF G w h then
        setList w_satur (some w) { st with
          prev := Function.update (Function.update st.prev w none) h (some w)
          next := Function.update st.next w (some h) }
      else
        (findPlace G st.next w G.num_node h).map fun iter =>
          { st with
            prev := Function.update (redirect st.prev (st.next iter) (some w)) w (some iter)
            next := Function.update (Function.update st.next w (st.next iter)) iter (some w) }

/-- The update of a neighbour. -/
def raise (color : Nat) (st : Dsatur) (w : Nat) : Option Dsatur :=
  match st.vertex_to_iter w with
  | none => some st
  | some _ =>
    if color ∈ st.color_set w then some st
    else
      let w_satur := st.vertex_to_satur w
      (unlink w_satur w
        { st with
          color_set := Function.update st.color_set w (insert color (st.color_set w)) }).bind
        fun st =>
          insertByDegree G (w_satur + 1) w (grow (w_satur + 1)
            { st with vertex_to_satur := Function.update st.vertex_to_satur w (w_satur + 1) })

/-- The body of the loop: the next vertex is selected and colored. -/
def colorNext (st : Dsatur) : Option Dsatur :=
  (scan st.satur_to_list st.maxsatur).bind fun (maxsatur, v) =>
    (takeFirst maxsatur v st).bind fun st =>
      let st := giveColor v st
      (G.adjacent_vertices v).foldlM (raise G (st.CM v)) st

/-- The state before the selection with a number. -/
def stateBefore (stable_sort : (Nat → Nat → Bool) → List Nat → List Nat) : Nat → Option Dsatur
  | 0 => some (init G stable_sort)
  | i + 1 => (stateBefore stable_sort i).bind (colorNext G)

/-- `dsatur_coloring`: the number of colors, with the coloring. -/
def dsatur_coloring (stable_sort : (Nat → Nat → Bool) → List Nat → List Nat) :
    Option (Nat × (Nat → Nat)) :=
  if G.num_node = 0 then some (0, fun _ => 0)
  else (stateBefore G stable_sort G.num_node).map fun st => (st.maxclr + 1, st.CM)

/-- The vertices that a list leads through. -/
def listAt (st : Dsatur) (satur : Nat) : List Nat :=
  follow st.next G.num_node ((st.satur_to_list[satur]?).getD none)

/-- The colors of the neighbours of a vertex. -/
def neighbourColors (st : Dsatur) (v : Nat) : Finset Nat :=
  (((List.range G.num_node).filter fun u =>
    u ∈ G.adjacent_vertices v ∧ st.vertex_to_iter u = none).map st.CM).toFinset

/-- The number of different colors among the neighbours of a vertex. -/
def saturation (st : Dsatur) (v : Nat) : Nat := (neighbourColors G st v).card

end Model

/-! ## The lists -/

section Lists

variable {lists : Nat → List Nat} {st st' : Dsatur}

/-- The pointers represent a list for each saturation, without a common vertex. -/
structure Links (lists : Nat → List Nat) (st : Dsatur) : Prop where
  head : ∀ s < st.satur_to_list.length, st.satur_to_list[s]? = some (lists s).head?
  next : ∀ s, LinkedList st.next (lists s)
  prev : ∀ s, LinkedList st.prev (lists s).reverse
  nodup : ∀ s, (lists s).Nodup
  apart : ∀ s t v, v ∈ lists s → v ∈ lists t → s = t

/-- One list is changed, and the nodes of the others are left alone. -/
theorem Links.edit (h : Links lists st) {s : Nat} {l : List Nat}
    (hhead : st'.satur_to_list = st.satur_to_list.set s l.head?)
    (hframe : ∀ t ≠ s, ∀ v ∈ lists t, st'.next v = st.next v ∧ st'.prev v = st.prev v)
    (hnext : LinkedList st'.next l) (hprev : LinkedList st'.prev l.reverse) (hnodup : l.Nodup)
    (hapart : ∀ t ≠ s, ∀ v ∈ l, v ∉ lists t) : Links (Function.update lists s l) st' := by
  have hne : ∀ t ≠ s, Function.update lists s l t = lists t := fun t ht =>
    Function.update_of_ne ht _ _
  have hself : Function.update lists s l s = l := Function.update_self _ _ _
  constructor
  case head =>
    intro t ht
    rw [hhead, List.length_set] at ht
    rw [hhead, List.getElem?_set]
    rcases eq_or_ne t s with rfl | hts
    · rw [if_pos rfl, if_pos ht, hself]
    · rw [if_neg hts.symm, hne t hts, h.head t ht]
  case next =>
    intro t
    rcases eq_or_ne t s with rfl | hts
    · rwa [hself]
    · rw [hne t hts]
      exact (h.next t).congr fun v hv => (hframe t hts v hv).1.symm
  case prev =>
    intro t
    rcases eq_or_ne t s with rfl | hts
    · rwa [hself]
    · rw [hne t hts]
      exact (h.prev t).congr fun v hv => (hframe t hts v (List.mem_reverse.mp hv)).2.symm
  case nodup =>
    intro t
    rcases eq_or_ne t s with rfl | hts
    · rwa [hself]
    · rw [hne t hts]
      exact h.nodup t
  case apart =>
    intro t u v ht hu
    rcases eq_or_ne t s with rfl | hts
    · rcases eq_or_ne u t with rfl | hut
      · rfl
      · rw [hself] at ht
        rw [hne u hut] at hu
        exact absurd hu (hapart u hut v ht)
    · rw [hne t hts] at ht
      rcases eq_or_ne u s with rfl | hus
      · rw [hself] at hu
        exact absurd ht (hapart t hts v hu)
      · rw [hne u hus] at hu
        exact h.apart t u v ht hu

theorem redirect_of_ne {f : Nat → Option Nat} {a x : Option Nat} {v : Nat} (h : a ≠ some v) :
    redirect f a x v = f v := by
  cases a with
  | none => rfl
  | some a => exact Function.update_of_ne (fun heq => h (congrArg some heq.symm)) _ _

theorem reverse_middle (A B : List Nat) (w : Nat) :
    (A ++ w :: B).reverse = B.reverse ++ w :: A.reverse := by simp

/-- The neighbours of a node in its list. -/
theorem Links.around (h : Links lists st) {s : Nat} {A B : List Nat} {w : Nat}
    (hs : lists s = A ++ w :: B) : st.next w = B.head? ∧ st.prev w = A.getLast? := by
  constructor
  · have hnext := h.next s
    rw [hs, LinkedList, LinkedTo.append_iff, LinkedTo.cons_iff] at hnext
    exact hnext.2.1.trans (Option.or_none ..)
  · have hprev := h.prev s
    rw [hs, reverse_middle, LinkedList, LinkedTo.append_iff, LinkedTo.cons_iff,
      List.head?_reverse] at hprev
    exact hprev.2.1.trans (Option.or_none ..)

/-- Taking out the node of a list, for any way to write the links that does this. -/
theorem Links.remove (h : Links lists st) {s : Nat} {A B : List Nat} {w : Nat}
    (hs : lists s = A ++ w :: B)
    (hhead : st'.satur_to_list = st.satur_to_list.set s (A ++ B).head?)
    (hnext : st'.next = redirect st.next A.getLast? B.head?)
    (hprev : st'.prev = redirect st.prev B.head? A.getLast?) :
    Links (Function.update lists s (A ++ B)) st' := by
  have hnodup := hs ▸ h.nodup s
  have hsub : ∀ v ∈ A ++ B, v ∈ lists s := by
    intro v hv
    rw [hs]
    rcases List.mem_append.mp hv with hA | hB
    · exact List.mem_append_left _ hA
    · exact List.mem_append_right _ (List.mem_cons_of_mem w hB)
  have hapart : ∀ t ≠ s, ∀ v ∈ A ++ B, v ∉ lists t := fun t hts v hv hvt =>
    hts (h.apart t s v hvt (hsub v hv))
  refine h.edit hhead (fun t hts v hv => ?_) ?_ ?_ ?_ hapart
  · rw [hnext, hprev]
    refine ⟨redirect_of_ne fun heq => ?_, redirect_of_ne fun heq => ?_⟩
    · exact hapart t hts v (List.mem_append_left _ (List.mem_of_getLast? heq)) hv
    · exact hapart t hts v (List.mem_append_right _ (List.mem_of_head? heq)) hv
  · rw [hnext]
    exact (hs ▸ h.next s).remove hnodup
  · have hlist := h.prev s
    rw [hs, reverse_middle] at hlist
    have hremoved := LinkedList.remove hlist
      (reverse_middle A B w ▸ List.nodup_reverse.mpr hnodup)
    rwa [List.getLast?_reverse, List.head?_reverse, ← List.reverse_append, ← hprev] at hremoved
  · exact hnodup.sublist ((List.Sublist.refl A).append (List.sublist_cons_self w B))

/-- Putting a new node into a list, for any way to write the links that does this. -/
theorem Links.insert (h : Links lists st) {s : Nat} {A B : List Nat} {w : Nat}
    (hs : lists s = A ++ B) (hw : ∀ t, w ∉ lists t)
    (hhead : st'.satur_to_list = st.satur_to_list.set s (A ++ w :: B).head?)
    (hnext : st'.next = Function.update (redirect st.next A.getLast? (some w)) w B.head?)
    (hprev : st'.prev = Function.update (redirect st.prev B.head? (some w)) w A.getLast?) :
    Links (Function.update lists s (A ++ w :: B)) st' := by
  have hnodup : (A ++ B).Nodup := hs ▸ h.nodup s
  have hwAB : w ∉ A ++ B := hs ▸ hw s
  have hapart : ∀ t ≠ s, ∀ v ∈ A ++ B, v ∉ lists t := fun t hts v hv hvt =>
    hts (h.apart t s v hvt (hs ▸ hv))
  refine h.edit hhead (fun t hts v hv => ?_) ?_ ?_ ?_ ?_
  · have hvw : v ≠ w := fun heq => hw t (heq ▸ hv)
    rw [hnext, hprev, Function.update_of_ne hvw, Function.update_of_ne hvw]
    refine ⟨redirect_of_ne fun heq => ?_, redirect_of_ne fun heq => ?_⟩
    · exact hapart t hts v (List.mem_append_left _ (List.mem_of_getLast? heq)) hv
    · exact hapart t hts v (List.mem_append_right _ (List.mem_of_head? heq)) hv
  · rw [hnext]
    exact (hs ▸ h.next s).insert hnodup hwAB
  · have hlist := h.prev s
    rw [hs, List.reverse_append] at hlist
    have hrev : (B.reverse ++ A.reverse).Nodup := by
      rw [← List.reverse_append]
      exact List.nodup_reverse.mpr hnodup
    have hinserted := LinkedList.insert hlist hrev (by
      rwa [← List.reverse_append, List.mem_reverse])
    rwa [List.getLast?_reverse, List.head?_reverse, ← hprev, ← reverse_middle] at hinserted
  · exact (List.perm_middle.nodup_iff).mpr (List.nodup_cons.mpr ⟨hwAB, hnodup⟩)
  · intro t hts v hv
    rcases List.mem_cons.mp (List.perm_middle.mem_iff.mp hv) with rfl | hv
    · exact hw t
    · exact hapart t hts v hv

end Lists

/-! ## The steps on the lists -/

section Steps

variable {G : ConflictGraph} {lists : Nat → List Nat} {st : Dsatur}

theorem setList_of_lt {satur : Nat} (h : satur < st.satur_to_list.length) (head : Option Nat) :
    setList satur head st =
      some { st with satur_to_list := st.satur_to_list.set satur head } := if_pos h

theorem Links.set_head (h : Links lists st) {s : Nat} (hlen : s < st.satur_to_list.length)
    {head : Option Nat} (hhead : (lists s).head? = head) :
    st.satur_to_list.set s head = st.satur_to_list := by
  refine List.ext_getElem? fun t => ?_
  rw [List.getElem?_set]
  split_ifs with heq
  · rw [← heq, h.head s hlen, hhead]
  · rfl

/-- The four cases of the removal are one change of the links. -/
theorem unlink_eq (h : Links lists st) {s : Nat} {A B : List Nat} {w : Nat}
    (hs : lists s = A ++ w :: B) (hlen : s < st.satur_to_list.length) :
    unlink s w st = some { st with
      satur_to_list := st.satur_to_list.set s (A ++ B).head?
      next := redirect st.next A.getLast? B.head?
      prev := redirect st.prev B.head? A.getLast? } := by
  obtain ⟨hnext, hprev⟩ := h.around hs
  unfold unlink
  rw [hnext, hprev]
  obtain rfl | ⟨A, x, rfl⟩ := A.eq_nil_or_concat'
  · cases B with
    | nil => exact setList_of_lt (by exact hlen) _
    | cons y B => exact setList_of_lt (by exact hlen) _
  · -- The head of the list stays.
    have hset : st.satur_to_list.set s (A ++ [x] ++ B).head? = st.satur_to_list := by
      refine h.set_head hlen ?_
      rw [hs]
      cases A <;> rfl
    rw [hset, List.getLast?_concat]
    cases B <;> rfl

theorem unlink_spec (h : Links lists st) {s : Nat} {A B : List Nat} {w : Nat}
    (hs : lists s = A ++ w :: B) (hlen : s < st.satur_to_list.length) :
    ∃ l next prev, l.length = st.satur_to_list.length ∧
      unlink s w st = some { st with satur_to_list := l, next := next, prev := prev } ∧
      Links (Function.update lists s (A ++ B))
        { st with satur_to_list := l, next := next, prev := prev } :=
  ⟨_, _, _, List.length_set, unlink_eq h hs hlen, h.remove hs rfl rfl rfl⟩

/-- The place behind which a vertex is inserted. -/
theorem findPlace_spec {next : Nat → Option Nat} {w : Nat} {B : List Nat} {iter fuel : Nat}
    (h : LinkedList next (iter :: B)) (hfuel : B.length < fuel) :
    ∃ A' iter' B', iter :: B = A' ++ iter' :: B' ∧ findPlace G next w fuel iter = some iter' ∧
      next iter' = B'.head? := by
  induction B generalizing iter fuel with
  | nil =>
    obtain ⟨fuel, rfl⟩ := Nat.exists_eq_succ_of_ne_zero (Nat.ne_of_gt hfuel)
    have hnext : next iter = none := h.1
    exact ⟨[], iter, [], rfl, by rw [findPlace, hnext], hnext⟩
  | cons y B ih =>
    obtain ⟨fuel, rfl⟩ := Nat.exists_eq_succ_of_ne_zero (Nat.ne_of_gt (Nat.zero_lt_of_lt hfuel))
    have hnext : next iter = some y := h.1
    rw [findPlace, hnext]
    by_cases hlower : DPF G w y = true
    · exact ⟨[], iter, y :: B, rfl, if_pos hlower, hnext⟩
    · obtain ⟨A', iter', B', hsplit, hfind, hlink⟩ := ih h.2 (Nat.lt_of_succ_lt_succ hfuel)
      exact ⟨iter :: A', iter', B', by rw [hsplit]; rfl, (if_neg hlower).trans hfind, hlink⟩

/-- The three cases of the insertion are one change of the links. -/
theorem insertByDegree_eq (h : Links lists st) {s w : Nat} (hlen : s < st.satur_to_list.length)
    (hw : ∀ t, w ∉ lists t) (hfuel : (lists s).length ≤ G.num_node) :
    ∃ A B, lists s = A ++ B ∧ insertByDegree G s w st = some { st with
      satur_to_list := st.satur_to_list.set s (A ++ w :: B).head?
      next := Function.update (redirect st.next A.getLast? (some w)) w B.head?
      prev := Function.update (redirect st.prev B.head? (some w)) w A.getLast? } := by
  have hws := hw s
  unfold insertByDegree
  rw [h.head s hlen, Option.bind_some]
  cases hl : lists s with
  | nil => exact ⟨[], [], rfl, setList_of_lt (by exact hlen) _⟩
  | cons x l =>
    rw [hl] at hws hfuel
    rw [List.head?_cons]
    by_cases hlower : DPF G w x = true
    · refine ⟨[], x :: l, rfl, ?_⟩
      have hwx : w ≠ x := fun heq => hws (heq ▸ List.mem_cons_self)
      dsimp only
      rw [if_pos hlower, setList_of_lt (by exact hlen), Function.update_comm hwx]
      rfl
    · obtain ⟨A, iter, B, hsplit, hfind, hlink⟩ :=
        findPlace_spec (G := G) (w := w) (hl ▸ h.next s) hfuel
      have hwi : w ≠ iter := fun heq => hws (hsplit ▸ heq ▸ by simp)
      -- The vertex is not the first, so that the head of the list stays.
      have hset : st.satur_to_list.set s (A ++ [iter] ++ w :: B).head? = st.satur_to_list := by
        refine h.set_head hlen ?_
        rw [hl, hsplit]
        cases A <;> rfl
      refine ⟨A ++ [iter], B, by rw [hsplit, List.append_assoc]; rfl, ?_⟩
      dsimp only
      rw [if_neg hlower, hfind, hset, Option.map_some, hlink, List.getLast?_concat,
        Function.update_comm hwi]
      rfl

theorem insertByDegree_spec (h : Links lists st) {s w : Nat} (hlen : s < st.satur_to_list.length)
    (hw : ∀ t, w ∉ lists t) (hfuel : (lists s).length ≤ G.num_node) :
    ∃ A B l next prev, lists s = A ++ B ∧ l.length = st.satur_to_list.length ∧
      insertByDegree G s w st = some { st with satur_to_list := l, next := next, prev := prev } ∧
      Links (Function.update lists s (A ++ w :: B))
        { st with satur_to_list := l, next := next, prev := prev } := by
  obtain ⟨A, B, hs, hrun⟩ := insertByDegree_eq h hlen hw hfuel
  exact ⟨A, B, _, _, _, hs, List.length_set, hrun, h.insert hs hw rfl rfl rfl⟩

/-- A level that is at most one higher than the maximum has its list. -/
theorem grow_spec (h : Links lists st) {s : Nat} (hs : s ≤ st.maxsatur + 1)
    (hlen : st.maxsatur < st.satur_to_list.length) (habove : ∀ t, st.maxsatur < t → lists t = []) :
    ∃ l, grow s st = { st with maxsatur := max st.maxsatur s, satur_to_list := l } ∧
      max st.maxsatur s < l.length ∧ Links lists { st with satur_to_list := l } := by
  unfold grow
  by_cases hmax : st.maxsatur < s
  · obtain rfl : s = st.maxsatur + 1 := Nat.le_antisymm hs hmax
    rw [if_pos hmax, Nat.max_eq_right (Nat.le_of_lt hmax), Nat.sub_eq_zero_of_le hlen]
    have htake : (st.satur_to_list.take (st.maxsatur + 1)).length = st.maxsatur + 1 :=
      List.length_take_of_le hlen
    refine ⟨_, rfl, by simp [htake], { h with head := fun t ht => ?_ }⟩
    rw [List.replicate_zero, List.append_nil] at ht ⊢
    rw [List.length_append, htake, List.length_singleton] at ht
    rcases Nat.lt_or_ge t (st.maxsatur + 1) with hlt | hge
    · rw [List.getElem?_append_left (by omega), List.getElem?_take_of_lt hlt]
      exact h.head t (by omega)
    · obtain rfl : t = st.maxsatur + 1 := by omega
      rw [List.getElem?_append_right (by omega), habove _ hmax, htake, Nat.sub_self]
      rfl
  · rw [if_neg hmax, Nat.max_eq_left (Nat.le_of_not_lt hmax)]
    exact ⟨st.satur_to_list, rfl, hlen, h⟩

/-- The scan stops at the last list that is not empty. -/
theorem scan_spec (h : Links lists st) {m : Nat} (hlen : m < st.satur_to_list.length)
    (habove : ∀ t, m < t → lists t = []) (hsome : ∃ t, lists t ≠ []) :
    ∃ s v l, scan st.satur_to_list m = some (s, v) ∧ s ≤ m ∧ lists s = v :: l ∧
      ∀ t, s < t → lists t = [] := by
  induction m with
  | zero =>
    obtain ⟨t, ht⟩ := hsome
    obtain rfl : t = 0 := Nat.eq_zero_of_not_pos fun hpos => ht (habove t hpos)
    obtain ⟨v, l, hl⟩ := List.exists_cons_of_ne_nil ht
    exact ⟨0, v, l, by rw [scan, h.head 0 hlen, hl]; rfl, Nat.le_refl 0, hl, habove⟩
  | succ m ih =>
    rw [scan, h.head (m + 1) hlen, Option.bind_some]
    cases hl : lists (m + 1) with
    | nil =>
      have habove' : ∀ t, m < t → lists t = [] := by
        intro t ht
        rcases Nat.eq_or_lt_of_le ht with rfl | hlt
        · exact hl
        · exact habove t hlt
      obtain ⟨s, v, l, hscan, hle, hfirst, hlast⟩ := ih (by omega) habove'
      exact ⟨s, v, l, hscan, by omega, hfirst, hlast⟩
    | cons v l => exact ⟨m + 1, v, l, rfl, Nat.le_refl _, hl, habove⟩

theorem takeFirst_spec (h : Links lists st) {s v : Nat} {l : List Nat} (hs : lists s = v :: l)
    (hlen : s < st.satur_to_list.length) :
    ∃ heads prev, heads.length = st.satur_to_list.length ∧
      takeFirst s v st = some { st with
        maxsatur := s, satur_to_list := heads, prev := prev
        vertex_to_iter := Function.update st.vertex_to_iter v none } ∧
      Links (Function.update lists s l) { st with satur_to_list := heads, prev := prev } := by
  obtain ⟨hnext, -⟩ := h.around (A := []) hs
  refine ⟨st.satur_to_list.set s l.head?, redirect st.prev l.head? none, List.length_set, ?_,
    h.remove (A := []) hs rfl rfl rfl⟩
  rw [takeFirst, hnext, setList_of_lt (by exact hlen), Option.map_some]
  dsimp only
  rw [hnext]

end Steps

end Dsatur
end CliqueCovering
end Bambu
