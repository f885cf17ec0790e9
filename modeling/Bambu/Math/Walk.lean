/-
  Bambu.Math.Walk

  Walks in a graph, and dominance: of nodes by nodes, and of walks by an edge that is passed after
  a node for the last time.
-/

import Mathlib.Data.List.Chain

namespace Bambu.Math

variable {α : Type} {E : α → α → Prop}

/-- The list of the nodes that a walk visits from its start to its end. -/
structure Walk (E : α → α → Prop) (s t : α) (w : List α) : Prop where
  chain : w.IsChain E
  head : w.head? = some s
  last : w.getLast? = some t

theorem Walk.refl (s : α) : Walk E s s [s] := ⟨List.isChain_singleton s, rfl, rfl⟩

/-- A walk can be cut at a node it visits, and walks put together there. -/
theorem walk_split {s t x : α} {p q : List α} :
    Walk E s t (p ++ x :: q) ↔ Walk E s x (p ++ [x]) ∧ Walk E x t (x :: q) := by
  have hhead : (p ++ x :: q).head? = (p ++ [x]).head? := by cases p <;> rfl
  have hlast : (p ++ x :: q).getLast? = (x :: q).getLast? := by
    rw [List.getLast?_append, List.getLast?_cons]
    rfl
  constructor
  · rintro ⟨hchain, hs, ht⟩
    obtain ⟨hp, hq⟩ := List.isChain_split.mp hchain
    exact ⟨⟨hp, hhead ▸ hs, List.getLast?_concat⟩, ⟨hq, rfl, hlast ▸ ht⟩⟩
  · rintro ⟨⟨hp, hs, -⟩, ⟨hq, -, ht⟩⟩
    exact ⟨List.isChain_split.mpr ⟨hp, hq⟩, hhead ▸ hs, hlast ▸ ht⟩

theorem Walk.snoc {s a b : α} {w : List α} (h : Walk E s a w) (hab : E a b) :
    Walk E s b (w ++ [b]) := by
  obtain ⟨p, rfl⟩ : ∃ p, w = p ++ [a] := by
    obtain ⟨p, hp⟩ := List.getLast?_eq_some_iff.mp h.last
    exact ⟨p, hp⟩
  rw [List.append_assoc]
  exact walk_split.mpr ⟨h, ⟨by simpa using hab, rfl, rfl⟩⟩

/-- A walk that does not start at its end has a last edge. -/
theorem Walk.unsnoc {s t : α} {p : List α} (h : Walk E s t (p ++ [t])) (hp : p ≠ []) :
    ∃ c p', p = p' ++ [c] ∧ Walk E s c p ∧ E c t := by
  obtain ⟨p', c, rfl⟩ : ∃ p' c, p = p' ++ [c] :=
    ⟨p.dropLast, p.getLast hp, (List.dropLast_append_getLast hp).symm⟩
  rw [List.append_assoc] at h
  obtain ⟨hwalk, hedge⟩ := walk_split.mp h
  exact ⟨c, p', rfl, hwalk, (List.isChain_pair.mp hedge.chain)⟩

theorem exists_first_mem {x : α} {w : List α} (h : x ∈ w) : ∃ p q, w = p ++ x :: q ∧ x ∉ p :=
  List.eq_append_cons_of_mem h

theorem exists_last_mem {x : α} {w : List α} (h : x ∈ w) : ∃ p q, w = p ++ x :: q ∧ x ∉ q := by
  obtain ⟨p, q, hw, hx⟩ := List.eq_append_cons_of_mem (List.mem_reverse.mpr h)
  refine ⟨q.reverse, p.reverse, ?_, fun h => hx (List.mem_reverse.mp h)⟩
  rw [← List.reverse_reverse w, hw]
  simp

/-! ## Dominance -/

/-- Every walk from the entry to the second node visits the first one. -/
def Dominates (E : α → α → Prop) (entry a b : α) : Prop :=
  ∀ w, Walk E entry b w → a ∈ w

/-- The walk passes the edge, has the node before, and after it at its end at most. -/
def LastThrough (D a b : α) (w : List α) : Prop :=
  ∃ p q, w = p ++ a :: b :: q ∧ D ∈ p ++ [a] ∧ D ∉ (b :: q).dropLast

variable {entry a b D t : α}

/-- A walk to the predecessor of a node is a way around the node, unless the node dominates it. -/
theorem exists_avoiding (h : ¬ Dominates E entry b t) : ∃ w, Walk E entry t w ∧ b ∉ w := by
  unfold Dominates at h
  push Not at h
  exact h

/-- An edge that is the only way into a node does not start below the node. -/
theorem not_dominates_source (hb : ∃ w, Walk E entry b w) (hentry : entry ≠ b)
    (honly : ∀ c, E c b → c ≠ a → Dominates E entry b c) : ¬ Dominates E entry b a := by
  intro hba
  obtain ⟨w, hw⟩ := hb
  obtain ⟨p, q, rfl, hp⟩ := exists_first_mem (List.mem_of_getLast? hw.last)
  obtain ⟨hwb, -⟩ := walk_split.mp hw
  have hne : p ≠ [] := by
    rintro rfl
    exact hentry (Option.some.inj hwb.head).symm
  obtain ⟨c, p', -, hwc, hcb⟩ := hwb.unsnoc hne
  by_cases hca : c = a
  · exact hp (hba p (hca ▸ hwc))
  · exact hp (honly c hcb hca p hwc)

/-- Where an edge is the only way into a node, apart from edges from below, every walk to what is
below the node passes the edge after it has visited a dominator of the edge for the last time. -/
theorem lastThrough_of_only (hb : ∃ w, Walk E entry b w) (hentry : entry ≠ b)
    (honly : ∀ c, E c b → c ≠ a → Dominates E entry b c) (hD : Dominates E entry D a)
    (hbt : Dominates E entry b t) {w : List α} (hw : Walk E entry t w) :
    ∃ p q, w = p ++ a :: b :: q ∧ D ∈ p ++ [a] ∧ D ∉ b :: q := by
  -- What comes into the node without a visit of it before comes through the edge.
  have hinto : ∀ {c p}, Walk E entry c p → b ∉ p → E c b → c = a := by
    intro c p hp hbp hcb
    by_contra hca
    exact hbp (honly c hcb hca p hp)
  obtain ⟨wa, hwa, hba⟩ := exists_avoiding (not_dominates_source hb hentry honly)
  -- There is a way to the dominator around the node.
  obtain ⟨u, hu, hbu⟩ : ∃ u, Walk E entry D (u ++ [D]) ∧ b ∉ u ++ [D] := by
    obtain ⟨p, q, rfl⟩ := List.append_of_mem (hD wa hwa)
    refine ⟨p, (walk_split.mp hwa).1, fun h => hba ?_⟩
    rw [List.append_cons]
    exact List.mem_append_left _ h
  have hDw : D ∈ w := by
    obtain ⟨p, q, rfl, hp⟩ := exists_first_mem (hbt w hw)
    obtain ⟨hwb, -⟩ := walk_split.mp hw
    have hne : p ≠ [] := by
      rintro rfl
      exact hentry (Option.some.inj hwb.head).symm
    obtain ⟨c, p', -, hwc, hcb⟩ := hwb.unsnoc hne
    obtain rfl := hinto hwc hp hcb
    exact List.mem_append_left _ (hD p hwc)
  obtain ⟨p, q, rfl, hDq⟩ := exists_last_mem hDw
  obtain ⟨hpD, hDt⟩ := walk_split.mp hw
  -- From the last visit of the dominator on, the walk comes to the node for the first time.
  have hbq : b ∈ q := by
    have hmem := hbt _ (walk_split.mpr ⟨hu, hDt⟩)
    rw [List.append_cons] at hmem
    exact (List.mem_append.mp hmem).resolve_left hbu
  obtain ⟨q₁, q₂, rfl, hq₁⟩ := exists_first_mem hbq
  have hround : Walk E entry b ((u ++ D :: q₁) ++ [b]) := by
    have h := walk_split.mpr ⟨hu, hDt⟩
    rw [show u ++ D :: (q₁ ++ b :: q₂) = (u ++ D :: q₁) ++ b :: q₂ by simp] at h
    exact (walk_split.mp h).1
  obtain ⟨c, r, hr, hwc, hcb⟩ := hround.unsnoc (by simp)
  have hca : c = a := by
    refine hinto hwc ?_ hcb
    rw [List.append_cons]
    exact fun h => (List.mem_append.mp h).elim hbu hq₁
  subst hca
  obtain ⟨r', hr'⟩ : ∃ r', D :: q₁ = r' ++ [c] := by
    refine ⟨(D :: q₁).dropLast, ?_⟩
    have hlast : (D :: q₁).getLast (List.cons_ne_nil D q₁) = c := by
      have h := congrArg List.getLast? hr
      rw [List.getLast?_append, List.getLast?_concat, List.getLast?_eq_some_getLast
        (List.cons_ne_nil D q₁)] at h
      exact Option.some.inj h
    rw [← hlast, List.dropLast_append_getLast]
  refine ⟨p ++ r', q₂, ?_, ?_, ?_⟩
  · rw [← List.cons_append, hr']
    simp
  · rw [List.append_assoc, ← hr']
    exact List.mem_append_right _ List.mem_cons_self
  · exact fun h => hDq (List.mem_append_right _ h)

/-- The walk does not go along the edge. -/
def Around (a b : α) (w : List α) : Prop := w.IsChain fun x y => ¬ (x = a ∧ y = b)

theorem around_cons {w : List α} (x : α) (h : b ∉ w) : Around a b (x :: w) := by
  have hnot : ∀ y ∈ w, ∀ z : α, ¬ (z = a ∧ y = b) := fun y hy z hzy => h (hzy.2 ▸ hy)
  have hpair : (x :: w).Pairwise fun x y => ¬ (x = a ∧ y = b) := by
    refine List.pairwise_cons.mpr ⟨fun y hy => hnot y hy x, ?_⟩
    exact List.pairwise_of_forall_mem_list fun z _ y hy => hnot y hy z
  exact hpair.isChain

theorem around_of_notMem {w : List α} (h : b ∉ w) : Around a b w := (around_cons a h).tail

theorem Around.not_lastThrough {w : List α} (h : Around a b w) : ¬ LastThrough D a b w := by
  rintro ⟨p, q, rfl, -⟩
  exact (List.isChain_append_cons_cons.mp h).2.1 ⟨rfl, rfl⟩

/-- A walk is still around the edge when it goes on along another one. -/
theorem Around.snoc {s x : α} {w : List α} (hw : Walk E s t w) (h : Around a b w)
    (hne : ¬ (t = a ∧ x = b)) : Around a b (w ++ [x]) := by
  obtain ⟨p, rfl⟩ := List.getLast?_eq_some_iff.mp hw.last
  rw [List.append_assoc]
  exact List.isChain_append_cons_cons.mpr ⟨h, hne, List.isChain_singleton x⟩

/-- There is a walk around an edge to a node the edge is not the only way to. -/
theorem exists_around (ht : ∃ w, Walk E entry t w) (h : ¬ (Dominates E entry b t ∧
    ∀ c, E c b → c ≠ a → Dominates E entry b c)) :
    ∃ w, Walk E entry t w ∧ Around a b w := by
  by_cases hbt : Dominates E entry b t
  · -- Come to the node along another edge, and do not come back to it.
    have hother : ∃ c, E c b ∧ c ≠ a ∧ ¬ Dominates E entry b c := by
      by_contra hno
      refine h ⟨hbt, fun c hcb hca => ?_⟩
      by_contra hbc
      exact hno ⟨c, hcb, hca, hbc⟩
    obtain ⟨c, hcb, hca, hbc⟩ := hother
    obtain ⟨wc, hwc, hbwc⟩ := exists_avoiding hbc
    obtain ⟨w, hw⟩ := ht
    obtain ⟨p, q, rfl, hbq⟩ := exists_last_mem (hbt w hw)
    refine ⟨wc ++ b :: q, walk_split.mpr ⟨hwc.snoc hcb, (walk_split.mp hw).2⟩, ?_⟩
    refine List.isChain_split.mpr ⟨?_, ?_⟩
    · exact (around_of_notMem hbwc).snoc hwc fun h => hca h.1
    · exact around_cons b hbq
  · obtain ⟨w, hw, hbw⟩ := exists_avoiding hbt
    exact ⟨w, hw, around_of_notMem hbw⟩

end Bambu.Math
