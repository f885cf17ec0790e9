/-
  Bambu.Algorithms.CliqueCovering.DsaturColoring

  `dsatur_coloring`: before each selection the lists hold the vertices without a color, each by the
  number of colors among its neighbours.
-/

import Bambu.Algorithms.CliqueCovering.DsaturLists

namespace Bambu
namespace CliqueCovering

open Bambu.Math

namespace Dsatur

/-! ## The coloring -/

section Coloring

variable {G : ConflictGraph} {lists : Nat → List Nat} {st : Dsatur}

/-- A node that has no color yet. -/
def Uncolored (G : ConflictGraph) (st : Dsatur) (v : Nat) : Prop :=
  v < G.num_node ∧ st.vertex_to_iter v ≠ none

/-- The lists hold the vertices without a color, each by the size of its color set. -/
structure Held (G : ConflictGraph) (lists : Nat → List Nat) (st : Dsatur) : Prop where
  links : Links lists st
  maxsatur_lt : st.maxsatur < st.satur_to_list.length
  above : ∀ s, st.maxsatur < s → lists s = []
  mem : ∀ s v, v ∈ lists s ↔ Uncolored G st v ∧ st.vertex_to_satur v = s
  satur : ∀ v, Uncolored G st v → st.vertex_to_satur v = (st.color_set v).card

theorem Held.le_maxsatur (h : Held G lists st) {s v : Nat} (hv : v ∈ lists s) :
    s ≤ st.maxsatur := by
  by_contra hlt
  rw [h.above s (Nat.lt_of_not_le hlt)] at hv
  exact List.not_mem_nil hv

theorem Held.length_le (h : Held G lists st) (s : Nat) : (lists s).length ≤ G.num_node := by
  have hsub : lists s ⊆ List.range G.num_node := fun v hv =>
    List.mem_range.mpr ((h.mem s v).mp hv).1.1
  have hle := ((h.links.nodup s).subperm hsub).length_le
  rwa [List.length_range] at hle

/-- The pointers lead through the lists. -/
theorem Held.listAt_eq (h : Held G lists st) (s : Nat) : listAt G st s = lists s := by
  unfold listAt
  rcases Nat.lt_or_ge s st.satur_to_list.length with hlt | hge
  · rw [h.links.head s hlt, Option.getD_some]
    exact (h.links.next s).follow (h.length_le s)
  · have hnil : lists s = [] := h.above s (Nat.lt_of_lt_of_le h.maxsatur_lt hge)
    rw [List.getElem?_eq_none hge, hnil, Option.getD_none]
    cases G.num_node <;> rfl

/-- What the update of a neighbour leaves alone, and what it does to the color sets. -/
structure Raised (color w : Nat) (st st' : Dsatur) : Prop where
  vertex_to_iter : st'.vertex_to_iter = st.vertex_to_iter
  CM : st'.CM = st.CM
  maxclr : st'.maxclr = st.maxclr
  color_set : ∀ v, st.vertex_to_iter v ≠ none →
    st'.color_set v = if v = w then insert color (st.color_set v) else st.color_set v

/-- A vertex is moved from one list to another. -/
theorem mem_moved {s t w : Nat} {A B A' B' : List Nat} (hs : lists s = A ++ w :: B)
    (ht : Function.update lists s (A ++ B) t = A' ++ B') (hnodup : (lists s).Nodup)
    (hapart : ∀ u, w ∈ lists u → u = s) (u v : Nat) :
    v ∈ Function.update (Function.update lists s (A ++ B)) t (A' ++ w :: B') u ↔
      if v = w then u = t else v ∈ lists u := by
  have hin : ∀ u, v ∈ Function.update lists s (A ++ B) u ↔ v ≠ w ∧ v ∈ lists u := by
    intro u
    rcases eq_or_ne u s with rfl | hus
    · rw [hs] at hnodup ⊢
      have hw := (List.nodup_cons.mp (List.perm_middle.nodup_iff.mp hnodup)).1
      rw [Function.update_self, List.perm_middle.mem_iff, List.mem_cons]
      constructor
      · exact fun hv => ⟨fun heq => hw (heq ▸ hv), .inr hv⟩
      · exact fun hv => hv.2.resolve_left hv.1
    · rw [Function.update_of_ne hus]
      exact ⟨fun hv => ⟨fun heq => hus (hapart u (heq ▸ hv)), hv⟩, And.right⟩
  rcases eq_or_ne u t with rfl | hut
  · rw [Function.update_self, List.perm_middle.mem_iff, List.mem_cons, ← ht, hin]
    split_ifs with heq
    · simp [heq]
    · simp [heq]
  · rw [Function.update_of_ne hut, hin]
    split_ifs with heq
    · simp [heq, hut]
    · simp [heq]

/-- A vertex gets one more color among its neighbours, and moves to the next list. -/
theorem Held.move (h : Held G lists st) {color w : Nat} (hw : Uncolored G st w)
    (hcolor : color ∉ st.color_set w) :
    ∃ lists' st', ((unlink (st.vertex_to_satur w) w
        { st with
          color_set := Function.update st.color_set w (insert color (st.color_set w)) }).bind
        fun st1 =>
          let w_satur := st.vertex_to_satur w
          insertByDegree G (w_satur + 1) w (grow (w_satur + 1)
            { st1 with
              vertex_to_satur := Function.update st1.vertex_to_satur w (w_satur + 1) })) =
          some st' ∧ Held G lists' st' ∧ Raised color w st st' := by
  have hmem : w ∈ lists (st.vertex_to_satur w) := (h.mem _ w).mpr ⟨hw, rfl⟩
  have hle := h.le_maxsatur hmem
  have hsatur := h.satur w hw
  generalize hsw : st.vertex_to_satur w = s at *
  obtain ⟨A, B, hs⟩ := List.append_of_mem hmem
  have hapart : ∀ t, w ∈ lists t → t = s := fun t ht => h.links.apart t s w ht hmem
  -- It is removed from its list.
  have hlinks : Links lists
      { st with color_set := Function.update st.color_set w (insert color (st.color_set w)) } :=
    { h.links with }
  obtain ⟨l1, next1, prev1, hlen1, hrun1, h1⟩ := unlink_spec hlinks hs
    (Nat.lt_of_le_of_lt hle h.maxsatur_lt)
  rw [hrun1, Option.bind_some]
  -- A list for the new level is made where it is missing.
  have habove1 : ∀ t, st.maxsatur < t → Function.update lists s (A ++ B) t = [] := by
    intro t ht
    rw [Function.update_of_ne (Nat.ne_of_gt (Nat.lt_of_le_of_lt hle ht))]
    exact h.above t ht
  have hremoved : Links (Function.update lists s (A ++ B)) { st with
      satur_to_list := l1, next := next1, prev := prev1
      vertex_to_satur := Function.update st.vertex_to_satur w (s + 1)
      color_set := Function.update st.color_set w (insert color (st.color_set w)) } :=
    { h1 with }
  obtain ⟨l2, hgrow, hlen2, h2⟩ :=
    grow_spec hremoved (Nat.succ_le_succ hle) (hlen1 ▸ h.maxsatur_lt) habove1
  dsimp only at hgrow ⊢
  rw [hgrow]
  -- It is inserted into the list of that level.
  have hout : ∀ t, w ∉ Function.update lists s (A ++ B) t := by
    intro t ht
    rcases eq_or_ne t s with rfl | hts
    · rw [Function.update_self] at ht
      have hnodup := hs ▸ h.links.nodup t
      exact (List.nodup_cons.mp (List.perm_middle.nodup_iff.mp hnodup)).1 ht
    · rw [Function.update_of_ne hts] at ht
      exact hts (hapart t ht)
  have hfuel : (Function.update lists s (A ++ B) (s + 1)).length ≤ G.num_node := by
    rw [Function.update_of_ne (Nat.succ_ne_self s)]
    exact h.length_le (s + 1)
  have hgrown : Links (Function.update lists s (A ++ B)) { st with
      maxsatur := max st.maxsatur (s + 1)
      satur_to_list := l2, next := next1, prev := prev1
      vertex_to_satur := Function.update st.vertex_to_satur w (s + 1)
      color_set := Function.update st.color_set w (insert color (st.color_set w)) } :=
    { h2 with }
  obtain ⟨A', B', l3, next3, prev3, hsplit, hlen3, hrun3, h3⟩ := insertByDegree_spec hgrown
    (Nat.lt_of_le_of_lt (Nat.le_max_right _ _) hlen2) hout hfuel
  have hmoved := mem_moved hs hsplit (h.links.nodup s) hapart
  refine ⟨_, _, hrun3, ⟨h3, hlen3 ▸ hlen2, fun t ht => ?_, fun t v => ?_, fun v hv => ?_⟩,
    rfl, rfl, rfl, fun v _ => ?_⟩
  · have hlt := Nat.max_lt.mp ht
    rw [Function.update_of_ne (Nat.ne_of_gt hlt.2)]
    exact habove1 t hlt.1
  · rw [hmoved]
    dsimp only
    split_ifs with heq
    · rw [heq, Function.update_self]
      exact ⟨fun hu => ⟨hw, hu.symm⟩, fun hu => hu.2.symm⟩
    · rw [Function.update_of_ne heq]
      exact h.mem t v
  · dsimp only
    rcases eq_or_ne v w with rfl | hne
    · rw [Function.update_self, Function.update_self, Finset.card_insert_of_notMem hcolor, hsatur]
    · rw [Function.update_of_ne hne, Function.update_of_ne hne]
      exact h.satur v hv
  · dsimp only
    rw [Function.update_apply]
    split_ifs with heq
    · rw [heq]
    · rfl

/-- The update of a neighbour keeps the lists. -/
theorem Held.raise (h : Held G lists st) (color : Nat) {w : Nat} (hw : w < G.num_node) :
    ∃ lists' st', Dsatur.raise G color st w = some st' ∧ Held G lists' st' ∧
      Raised color w st st' := by
  unfold Dsatur.raise
  cases hiter : st.vertex_to_iter w with
  | none =>
    refine ⟨lists, st, rfl, h, rfl, rfl, rfl, fun v hv => (if_neg ?_).symm⟩
    rintro rfl
    exact hv hiter
  | some x =>
    by_cases hcolor : color ∈ st.color_set w
    · refine ⟨lists, st, if_pos hcolor, h, rfl, rfl, rfl, fun v _ => ?_⟩
      split_ifs with heq
      · rw [heq, Finset.insert_eq_of_mem hcolor]
      · rfl
    · obtain ⟨lists', st', hrun, h', hraised⟩ :=
        h.move ⟨hw, hiter ▸ Option.some_ne_none x⟩ hcolor
      exact ⟨lists', st', (if_neg hcolor).trans hrun, h', hraised⟩

/-- The neighbours of the colored vertex, one after the other. -/
theorem Held.raiseAll (color : Nat) {l : List Nat} (hl : ∀ w ∈ l, w < G.num_node) :
    ∀ {lists st}, Held G lists st → ∃ lists' st', l.foldlM (Dsatur.raise G color) st = some st' ∧
      Held G lists' st' ∧ st'.vertex_to_iter = st.vertex_to_iter ∧ st'.CM = st.CM ∧
        st'.maxclr = st.maxclr ∧ ∀ v, st.vertex_to_iter v ≠ none →
          st'.color_set v = if v ∈ l then insert color (st.color_set v) else st.color_set v := by
  induction l with
  | nil => exact fun h => ⟨_, _, rfl, h, rfl, rfl, rfl, fun _ _ => (if_neg List.not_mem_nil).symm⟩
  | cons w l ih =>
    intro lists st h
    obtain ⟨lists1, st1, hrun1, h1, hraised⟩ := h.raise color (hl w List.mem_cons_self)
    obtain ⟨lists2, st2, hrun2, h2, hiter, hCM, hmaxclr, hset⟩ :=
      ih (fun u hu => hl u (List.mem_cons_of_mem w hu)) h1
    refine ⟨lists2, st2, by rw [List.foldlM_cons, hrun1]; exact hrun2, h2,
      hiter.trans hraised.vertex_to_iter, hCM.trans hraised.CM, hmaxclr.trans hraised.maxclr,
      fun v hv => ?_⟩
    rw [hset v (hraised.vertex_to_iter ▸ hv), hraised.color_set v hv]
    by_cases hvl : v ∈ l <;> by_cases hvw : v = w <;> simp [hvl, hvw]

end Coloring

/-! ## The constructor -/

section Constructor

variable {G : ConflictGraph} {st : Dsatur}

/-- The vertices so far are in one list, and the others are not linked. -/
structure Chain (P : List Nat) (st : Dsatur) : Prop where
  satur_to_list : st.satur_to_list = [P.head?]
  next : LinkedList st.next P
  prev : LinkedList st.prev P.reverse
  fresh : ∀ v, v ∉ P → st.next v = none ∧ st.prev v = none
  iter : ∀ v, st.vertex_to_iter v ≠ none ↔ v ∈ P

/-- One more vertex behind the last. -/
theorem Chain.append {P : List Nat} (h : Chain P st) (hnodup : P.Nodup) {w : Nat} (hw : w ∉ P) :
    Chain (P ++ [w]) { st with
      satur_to_list := [(P ++ [w]).head?]
      next := redirect st.next P.getLast? (some w)
      prev := Function.update st.prev w P.getLast?
      vertex_to_iter := Function.update st.vertex_to_iter w (some w) } := by
  have hlast : redirect st.next P.getLast? (some w) w = none := by
    rw [redirect_of_ne fun heq => hw (List.mem_of_getLast? heq)]
    exact (h.fresh w hw).1
  constructor
  case satur_to_list => rfl
  case next =>
    have hlist : LinkedList st.next (P ++ []) := by
      rw [List.append_nil]
      exact h.next
    have hinsert := hlist.insert (by rwa [List.append_nil]) (by rwa [List.append_nil])
    rwa [List.head?_nil, Function.update_eq_self_iff.mpr hlast.symm] at hinsert
  case prev =>
    have hlist : LinkedList st.prev ([] ++ P.reverse) := h.prev
    have hout : w ∉ [] ++ P.reverse := by rwa [List.nil_append, List.mem_reverse]
    have hinsert := hlist.insert (List.nodup_reverse.mpr hnodup) hout
    rw [List.head?_reverse] at hinsert
    rw [List.reverse_concat]
    exact hinsert
  case fresh =>
    intro v hv
    rw [List.mem_append, List.mem_singleton, not_or] at hv
    refine ⟨?_, (Function.update_of_ne hv.2 _ _).trans (h.fresh v hv.1).2⟩
    exact (redirect_of_ne fun heq => hv.1 (List.mem_of_getLast? heq)).trans (h.fresh v hv.1).1
  case iter =>
    intro v
    dsimp only
    rw [List.mem_append, List.mem_singleton, ← h.iter v]
    rcases eq_or_ne v w with rfl | hne
    · rw [Function.update_self]
      simp
    · rw [Function.update_of_ne hne]
      simp [hne]

theorem Chain.linkAll {l : List Nat} : ∀ {P : List Nat} {st : Dsatur}, Chain P st →
    (P ++ l).Nodup → ∃ heads next prev iter,
      Dsatur.linkAll l P.getLast? st = { st with
        satur_to_list := heads, next := next, prev := prev, vertex_to_iter := iter } ∧
      Chain (P ++ l) (Dsatur.linkAll l P.getLast? st) := by
  induction l with
  | nil => exact fun h _ => ⟨_, _, _, _, rfl, by rwa [List.append_nil]⟩
  | cons w l ih =>
    intro P st h hnodup
    rw [List.append_cons] at hnodup ⊢
    have hP := (List.nodup_append.mp hnodup).1
    have hw : w ∉ P := fun hmem => (List.nodup_append.mp hP).2.2 w hmem w (by simp) rfl
    have hnext := h.append (List.nodup_append.mp hP).1 hw
    obtain ⟨heads, next, prev, iter, heq, hchain⟩ := ih hnext hnodup
    rw [List.getLast?_concat] at heq hchain
    have hstep : Dsatur.linkAll (w :: l) P.getLast? st = Dsatur.linkAll l (some w) { st with
        satur_to_list := [(P ++ [w]).head?]
        next := redirect st.next P.getLast? (some w)
        prev := Function.update st.prev w P.getLast?
        vertex_to_iter := Function.update st.vertex_to_iter w (some w) } := by
      obtain rfl | ⟨P, x, rfl⟩ := P.eq_nil_or_concat'
      · have hfresh : Function.update st.prev w none = st.prev :=
          Function.update_eq_self_iff.mpr (h.fresh w List.not_mem_nil).2.symm
        rw [List.getLast?_nil, hfresh]
        rfl
      · have hheads : [(P ++ [x] ++ [w]).head?] = st.satur_to_list := by
          rw [h.satur_to_list]
          cases P <;> rfl
        rw [hheads, List.getLast?_concat]
        rfl
    rw [hstep]
    exact ⟨heads, next, prev, iter, heq, hchain⟩

/-- The constructor leaves all vertices in the first list. -/
theorem init_spec {stable_sort : (Nat → Nat → Bool) → List Nat → List Nat}
    (hsort : ∀ cmp l, (stable_sort cmp l).Perm l) :
    ∃ lists, Held G lists (init G stable_sort) ∧
      (∀ v, (init G stable_sort).vertex_to_iter v ≠ none ↔ v < G.num_node) ∧
      ∀ v, (init G stable_sort).color_set v = ∅ := by
  have hperm := hsort (compareDegree G) (List.range G.num_node)
  have hnodup : (stable_sort (compareDegree G) (List.range G.num_node)).Nodup :=
    hperm.nodup_iff.mpr List.nodup_range
  have hmem : ∀ v, v ∈ stable_sort (compareDegree G) (List.range G.num_node) ↔ v < G.num_node :=
    fun v => hperm.mem_iff.trans List.mem_range
  generalize hl : stable_sort (compareDegree G) (List.range G.num_node) = l at *
  have hempty : Chain [] (⟨[none], fun _ => 0, fun _ => none, fun _ => ∅, fun _ => 0,
      fun _ => none, fun _ => none, 0, 0⟩ : Dsatur) :=
    { satur_to_list := rfl
      next := trivial
      prev := trivial
      fresh := fun _ _ => ⟨rfl, rfl⟩
      iter := fun _ => by simp }
  obtain ⟨heads, next, prev, iter, heq, hchain⟩ := hempty.linkAll hnodup
  rw [List.nil_append, List.getLast?_nil] at hchain
  rw [List.getLast?_nil] at heq
  have hinit : init G stable_sort = Dsatur.linkAll l none
      ⟨[none], fun _ => 0, fun _ => none, fun _ => ∅, fun _ => 0, fun _ => none,
        fun _ => none, 0, 0⟩ := by rw [init, hl]
  rw [← hinit] at heq hchain
  have hsatur : (init G stable_sort).vertex_to_satur = fun _ => 0 := by rw [heq]
  have hset : (init G stable_sort).color_set = fun _ => ∅ := by rw [heq]
  have hmax : (init G stable_sort).maxsatur = 0 := by rw [heq]
  have hiter : ∀ v, (init G stable_sort).vertex_to_iter v ≠ none ↔ v < G.num_node :=
    fun v => (hchain.iter v).trans (hmem v)
  refine ⟨fun s => if s = 0 then l else [], ?_, hiter, fun v => by rw [hset]⟩
  constructor
  case links =>
    constructor
    case head =>
      intro s hs
      rw [hchain.satur_to_list] at hs ⊢
      obtain rfl := Nat.lt_one_iff.mp hs
      rfl
    case next =>
      intro s
      split_ifs
      · exact hchain.next
      · exact trivial
    case prev =>
      intro s
      split_ifs
      · exact hchain.prev
      · exact trivial
    case nodup =>
      intro s
      split_ifs
      · exact hnodup
      · exact List.nodup_nil
    case apart =>
      intro s t v hs ht
      by_cases hs0 : s = 0 <;> by_cases ht0 : t = 0 <;> simp_all
  case maxsatur_lt =>
    rw [hmax, hchain.satur_to_list]
    exact Nat.one_pos
  case above =>
    intro s hs
    exact if_neg (Nat.ne_of_gt (Nat.zero_lt_of_lt hs))
  case mem =>
    intro s v
    rw [hsatur]
    dsimp only
    split_ifs with hs
    · rw [Uncolored, hiter, hmem]
      simp [hs]
    · simp [Ne.symm hs]
  case satur =>
    intro v _
    rw [hsatur, hset, Finset.card_empty]

end Constructor

/-! ## The run -/

section Run

variable {G : ConflictGraph} {st : Dsatur}

theorem mem_neighbourColors {v c : Nat} : c ∈ neighbourColors G st v ↔
    ∃ u < G.num_node, G.Adj v u ∧ st.vertex_to_iter u = none ∧ st.CM u = c := by
  simp [neighbourColors, ConflictGraph.mem_adjacent_vertices, and_assoc]

/-- One more vertex with a color. -/
theorem neighbourColors_give {st' : Dsatur} {v c : Nat} (hv : Uncolored G st v)
    (hiter : st'.vertex_to_iter = Function.update st.vertex_to_iter v none)
    (hCM : st'.CM = Function.update st.CM v c) (u : Nat) :
    neighbourColors G st' u =
      if u ∈ G.adjacent_vertices v then insert c (neighbourColors G st u)
      else neighbourColors G st u := by
  -- The vertices with a color before keep it.
  have hold : ∀ w, st.vertex_to_iter w = none → w ≠ v := fun w hw heq => hv.2 (heq ▸ hw)
  have hsome : ∀ x, (∃ w < G.num_node, G.Adj u w ∧ st'.vertex_to_iter w = none ∧ st'.CM w = x) ↔
      (G.Adj v u ∧ x = c) ∨
        ∃ w < G.num_node, G.Adj u w ∧ st.vertex_to_iter w = none ∧ st.CM w = x := by
    intro x
    rw [hiter, hCM]
    constructor
    · rintro ⟨w, hw, hadj, hnone, hx⟩
      rcases eq_or_ne w v with rfl | hne
      · rw [Function.update_self] at hx
        exact .inl ⟨hadj.symm, hx.symm⟩
      · rw [Function.update_of_ne hne] at hnone hx
        exact .inr ⟨w, hw, hadj, hnone, hx⟩
    · rintro (⟨hadj, rfl⟩ | ⟨w, hw, hadj, hnone, hx⟩)
      · exact ⟨v, hv.1, hadj.symm, Function.update_self .., Function.update_self ..⟩
      · have hne := hold w hnone
        exact ⟨w, hw, hadj, (Function.update_of_ne hne ..).trans hnone,
          (Function.update_of_ne hne ..).trans hx⟩
  ext x
  rw [mem_neighbourColors, hsome, ← mem_neighbourColors, ← ConflictGraph.mem_adjacent_vertices]
  split_ifs with hadj
  · rw [Finset.mem_insert]
    simp [hadj]
  · simp [hadj]

theorem leastColor_notMem (colors : Finset Nat) : leastColor colors ∉ colors :=
  Nat.find_spec (Infinite.exists_notMem_finset colors)

/-- Before the selection `i`: the vertices that are not in the lists are colored. -/
structure Invariant (G : ConflictGraph) (i : Nat) (st : Dsatur) : Prop where
  held : ∃ lists, Held G lists st
  colors : ∀ v, Uncolored G st v → st.color_set v = neighbourColors G st v
  apart : ∀ v w, st.vertex_to_iter v = none → st.vertex_to_iter w = none → v < G.num_node →
    w < G.num_node → v ≠ w → G.Adj v w → st.CM v ≠ st.CM w
  le_maxclr : ∀ v < G.num_node, st.vertex_to_iter v = none → st.CM v ≤ st.maxclr
  count : ((Finset.range G.num_node).filter fun v => st.vertex_to_iter v ≠ none).card + i =
    G.num_node

theorem Invariant.saturation_eq {i v : Nat} (h : Invariant G i st) (hv : Uncolored G st v) :
    st.vertex_to_satur v = saturation G st v := by
  obtain ⟨lists, hheld⟩ := h.held
  rw [hheld.satur v hv, h.colors v hv, saturation]

/-- The first vertex of the last list is taken out, and gets a color. -/
theorem Held.give {lists : Nat → List Nat} (h : Held G lists st) {s v : Nat} {l : List Nat}
    (hle : s ≤ st.maxsatur) (hs : lists s = v :: l) (hlast : ∀ t, s < t → lists t = []) :
    ∃ st1, takeFirst s v st = some st1 ∧ Held G (Function.update lists s l) (giveColor v st1) ∧
      st1.vertex_to_iter = Function.update st.vertex_to_iter v none ∧
      st1.color_set = st.color_set ∧ st1.CM = st.CM ∧ st1.maxclr = st.maxclr := by
  obtain ⟨heads, prev, hlen, htake, hlinks⟩ :=
    takeFirst_spec h.links hs (Nat.lt_of_le_of_lt hle h.maxsatur_lt)
  refine ⟨_, htake, ?_, rfl, rfl, rfl, rfl⟩
  have hnodup := h.links.nodup s
  rw [hs] at hnodup
  have hvl := (List.nodup_cons.mp hnodup).1
  have hv := (h.mem s v).mp (hs ▸ List.mem_cons_self)
  have hother : ∀ u, Uncolored G (giveColor v { st with
      maxsatur := s, satur_to_list := heads, prev := prev
      vertex_to_iter := Function.update st.vertex_to_iter v none }) u ↔
        Uncolored G st u ∧ u ≠ v := by
    intro u
    rw [Uncolored, Uncolored, giveColor]
    dsimp only
    rcases eq_or_ne u v with rfl | hne
    · simp
    · rw [Function.update_of_ne hne]
      simp [hne]
  constructor
  case links => exact { hlinks with }
  case maxsatur_lt => exact hlen ▸ Nat.lt_of_le_of_lt hle h.maxsatur_lt
  case above =>
    intro t ht
    have hst : s < t := ht
    rw [Function.update_of_ne (Nat.ne_of_gt hst)]
    exact hlast t hst
  case mem =>
    intro t u
    rw [hother]
    have hmem := h.mem t u
    rcases eq_or_ne t s with rfl | hts
    · rw [hs, List.mem_cons] at hmem
      rw [Function.update_self]
      constructor
      · intro hu
        have hunc := hmem.mp (.inr hu)
        exact ⟨⟨hunc.1, fun heq => hvl (heq ▸ hu)⟩, hunc.2⟩
      · exact fun hu => (hmem.mpr ⟨hu.1.1, hu.2⟩).resolve_left hu.1.2
    · rw [Function.update_of_ne hts, hmem]
      constructor
      · rintro ⟨hunc, rfl⟩
        exact ⟨⟨hunc, fun heq => hts (heq ▸ hv.2)⟩, rfl⟩
      · exact fun hu => ⟨hu.1.1, hu.2⟩
  case satur =>
    intro u hu
    have hu := (hother u).mp hu
    rw [giveColor]
    dsimp only
    rw [Function.update_of_ne hu.2]
    exact h.satur u hu.1

/-- The selection, the coloring and the update of the neighbours. -/
theorem Invariant.colorNext (hG : G.WellFormed) {i : Nat} (h : Invariant G i st)
    (hi : i < G.num_node) :
    ∃ s v st', scan st.satur_to_list st.maxsatur = some (s, v) ∧ Uncolored G st v ∧
      (∀ u, Uncolored G st u → saturation G st u ≤ saturation G st v) ∧
      Dsatur.colorNext G st = some st' ∧ Invariant G (i + 1) st' := by
  obtain ⟨lists, hheld⟩ := h.held
  -- A vertex is left, so that the scan finds one.
  have hsome : ∃ t, lists t ≠ [] := by
    have hpos :
        0 < ((Finset.range G.num_node).filter fun v => st.vertex_to_iter v ≠ none).card := by
      have := h.count
      omega
    obtain ⟨v, hv⟩ := Finset.card_pos.mp hpos
    rw [Finset.mem_filter, Finset.mem_range] at hv
    exact ⟨_, List.ne_nil_of_mem ((hheld.mem _ v).mpr ⟨hv, rfl⟩)⟩
  obtain ⟨s, v, l, hscan, hle, hs, hlast⟩ :=
    scan_spec hheld.links hheld.maxsatur_lt hheld.above hsome
  have hv : Uncolored G st v ∧ st.vertex_to_satur v = s :=
    (hheld.mem s v).mp (hs ▸ List.mem_cons_self)
  have hmaximal : ∀ u, Uncolored G st u → saturation G st u ≤ saturation G st v := by
    intro u hu
    rw [← h.saturation_eq hu, ← h.saturation_eq hv.1, hv.2]
    by_contra hlt
    have hmem : u ∈ lists (st.vertex_to_satur u) := (hheld.mem _ u).mpr ⟨hu, rfl⟩
    rw [hlast _ (Nat.lt_of_not_le hlt)] at hmem
    exact List.not_mem_nil hmem
  obtain ⟨st1, htake, hheld1, hiter1, hset1, hCM1, hmaxclr1⟩ := hheld.give hle hs hlast
  -- It gets a color that no neighbour has.
  have hgive :
      (giveColor v st1).CM = Function.update st.CM v (leastColor (neighbourColors G st v)) ∧
      (giveColor v st1).maxclr = max st.maxclr (leastColor (neighbourColors G st v)) ∧
      ∀ u ≠ v, (giveColor v st1).color_set u = st.color_set u := by
    unfold giveColor
    rw [hset1, hCM1, hmaxclr1, h.colors v hv.1]
    refine ⟨rfl, ?_, fun u hu => Function.update_of_ne hu ..⟩
    dsimp only
    split_ifs <;> omega
  have hnew := leastColor_notMem (neighbourColors G st v)
  generalize leastColor (neighbourColors G st v) = c at hgive hnew
  obtain ⟨hCMc, hmaxclrc, hsetc⟩ := hgive
  obtain ⟨lists2, st2, hrun, hheld2, hiter2, hCM2, hmaxclr2, hset2⟩ :=
    Held.raiseAll (G := G) c (l := G.adjacent_vertices v)
      (fun w hw => (hG.lt (ConflictGraph.mem_adjacent_vertices.mp hw)).2) hheld1
  have hiter : st2.vertex_to_iter = Function.update st.vertex_to_iter v none := hiter2.trans hiter1
  have hCM : st2.CM = Function.update st.CM v c := hCM2.trans hCMc
  have hmaxclr : st2.maxclr = max st.maxclr c := hmaxclr2.trans hmaxclrc
  have hselect : Dsatur.colorNext G st = some st2 := by
    have hcv : (giveColor v st1).CM v = c := by rw [hCMc, Function.update_self]
    rw [Dsatur.colorNext, hscan, Option.bind_some]
    dsimp only
    rw [htake, Option.bind_some, hcv]
    exact hrun
  have hnone : ∀ u, st2.vertex_to_iter u = none ↔ u = v ∨ st.vertex_to_iter u = none := by
    intro u
    rw [hiter]
    rcases eq_or_ne u v with rfl | hne
    · simp
    · rw [Function.update_of_ne hne]
      simp [hne]
  have hapart : ∀ u, st.vertex_to_iter u = none → u < G.num_node → G.Adj v u → st.CM u ≠ c :=
    fun u hu hlt hadj heq => hnew (mem_neighbourColors.mpr ⟨u, hlt, hadj, hu, heq⟩)
  refine ⟨s, v, st2, hscan, hv.1, hmaximal, hselect, ?_⟩
  constructor
  case held => exact ⟨lists2, hheld2⟩
  case colors =>
    intro u hu
    have hne : u ≠ v := fun heq => hu.2 ((hnone u).mpr (.inl heq))
    have hunc : st.vertex_to_iter u ≠ none := fun heq => hu.2 ((hnone u).mpr (.inr heq))
    have hunc1 : (giveColor v st1).vertex_to_iter u ≠ none := hiter2 ▸ hu.2
    rw [hset2 u hunc1, neighbourColors_give hv.1 hiter hCM, hsetc u hne, h.colors u ⟨hu.1, hunc⟩]
  case apart =>
    intro u w hu hw hun hwn huw hadj
    rw [hCM]
    rcases eq_or_ne u v with rfl | huv
    · have hw := ((hnone w).mp hw).resolve_left huw.symm
      rw [Function.update_self, Function.update_of_ne huw.symm]
      exact (hapart w hw hwn hadj).symm
    · have hu := ((hnone u).mp hu).resolve_left huv
      rw [Function.update_of_ne huv]
      rcases eq_or_ne w v with rfl | hwv
      · rw [Function.update_self]
        exact hapart u hu hun hadj.symm
      · rw [Function.update_of_ne hwv]
        exact h.apart u w hu (((hnone w).mp hw).resolve_left hwv) hun hwn huw hadj
  case le_maxclr =>
    intro u hun hu
    rw [hCM, hmaxclr]
    rcases eq_or_ne u v with rfl | huv
    · rw [Function.update_self]
      exact Nat.le_max_right ..
    · rw [Function.update_of_ne huv]
      have hle := h.le_maxclr u hun (((hnone u).mp hu).resolve_left huv)
      exact Nat.le_trans hle (Nat.le_max_left ..)
  case count =>
    have herase : ((Finset.range G.num_node).filter fun u => st2.vertex_to_iter u ≠ none) =
        ((Finset.range G.num_node).filter fun u => st.vertex_to_iter u ≠ none).erase v := by
      ext u
      rw [Finset.mem_erase, Finset.mem_filter, Finset.mem_filter, Ne, hnone]
      tauto
    have hmem : v ∈ (Finset.range G.num_node).filter fun u => st.vertex_to_iter u ≠ none :=
      Finset.mem_filter.mpr ⟨Finset.mem_range.mpr hv.1.1, hv.1.2⟩
    have hpos := Finset.card_pos.mpr ⟨v, hmem⟩
    have hcount := h.count
    rw [herase, Finset.card_erase_of_mem hmem]
    omega

theorem stateBefore_spec (hG : G.WellFormed)
    {stable_sort : (Nat → Nat → Bool) → List Nat → List Nat}
    (hsort : ∀ cmp l, (stable_sort cmp l).Perm l) {i : Nat} (hi : i ≤ G.num_node) :
    ∃ st, stateBefore G stable_sort i = some st ∧ Invariant G i st := by
  induction i with
  | zero =>
    obtain ⟨lists, hheld, hiter, hset⟩ := init_spec (G := G) hsort
    have hcolored : ∀ v, v < G.num_node → (init G stable_sort).vertex_to_iter v ≠ none :=
      fun v hv => (hiter v).mpr hv
    refine ⟨_, rfl, ⟨lists, hheld⟩, fun v hv => ?_, fun v _ hv _ hn => absurd hv (hcolored v hn),
      fun v hn hv => absurd hv (hcolored v hn), ?_⟩
    · rw [hset, eq_comm, Finset.eq_empty_iff_forall_notMem]
      intro c hc
      obtain ⟨u, hun, -, hu, -⟩ := mem_neighbourColors.mp hc
      exact hcolored u hun hu
    · rw [Finset.filter_true_of_mem fun v hv => hcolored v (Finset.mem_range.mp hv),
        Finset.card_range, Nat.add_zero]
  | succ i ih =>
    obtain ⟨st, hrun, h⟩ := ih (Nat.le_of_succ_le hi)
    obtain ⟨-, -, st', -, -, -, hnext, h'⟩ := h.colorNext hG hi
    exact ⟨st', by rw [stateBefore, hrun, Option.bind_some, hnext], h'⟩

/-- Before each selection the lists hold the vertices without a color by their saturation, and the
one that is selected has the largest. -/
theorem stateBefore_lists (hG : G.WellFormed)
    {stable_sort : (Nat → Nat → Bool) → List Nat → List Nat}
    (hsort : ∀ cmp l, (stable_sort cmp l).Perm l) {i : Nat} (hi : i < G.num_node) :
    ∃ st s v, stateBefore G stable_sort i = some st ∧
      (∀ s, (listAt G st s).Nodup) ∧
      (∀ s v, v ∈ listAt G st s ↔ Uncolored G st v ∧ saturation G st v = s) ∧
      scan st.satur_to_list st.maxsatur = some (s, v) ∧ Uncolored G st v ∧
      ∀ u, Uncolored G st u → saturation G st u ≤ saturation G st v := by
  obtain ⟨st, hrun, h⟩ := stateBefore_spec hG hsort (Nat.le_of_lt hi)
  obtain ⟨s, v, -, hscan, hv, hmax, -⟩ := h.colorNext hG hi
  obtain ⟨lists, hheld⟩ := h.held
  refine ⟨st, s, v, hrun, fun s => ?_, fun s v => ?_, hscan, hv, hmax⟩
  · rw [hheld.listAt_eq]
    exact hheld.links.nodup s
  · rw [hheld.listAt_eq, hheld.mem]
    exact and_congr_right fun hv => by rw [h.saturation_eq hv]

/-- No index leaves a table, and adjacent vertices get different colors. -/
theorem dsatur_coloring_proper (hG : G.WellFormed)
    {stable_sort : (Nat → Nat → Bool) → List Nat → List Nat}
    (hsort : ∀ cmp l, (stable_sort cmp l).Perm l) :
    ∃ k color, dsatur_coloring G stable_sort = some (k, color) ∧ (k = 0 ↔ G.num_node = 0) ∧
      (∀ v < G.num_node, color v < k) ∧
        ∀ v < G.num_node, ∀ w < G.num_node, v ≠ w → G.Adj v w → color v ≠ color w := by
  unfold dsatur_coloring
  by_cases hzero : G.num_node = 0
  · rw [if_pos hzero]
    exact ⟨0, fun _ => 0, rfl, by simp [hzero], fun v hv => absurd hv (by omega),
      fun v hv => absurd hv (by omega)⟩
  · rw [if_neg hzero]
    obtain ⟨st, hrun, h⟩ := stateBefore_spec hG hsort (Nat.le_refl G.num_node)
    -- No vertex is left.
    have hnone : ∀ v < G.num_node, st.vertex_to_iter v = none := by
      intro v hv
      by_contra hne
      have hmem : v ∈ (Finset.range G.num_node).filter fun u => st.vertex_to_iter u ≠ none :=
        Finset.mem_filter.mpr ⟨Finset.mem_range.mpr hv, hne⟩
      have hpos := Finset.card_pos.mpr ⟨v, hmem⟩
      have hcount := h.count
      omega
    exact ⟨_, _, by rw [hrun]; rfl, by simp [hzero],
      fun v hv => Nat.lt_succ_of_le (h.le_maxclr v hv (hnone v hv)),
      fun v hv w hw => h.apart v w (hnone v hv) (hnone w hw) hv hw⟩

end Run

end Dsatur
end CliqueCovering
end Bambu
