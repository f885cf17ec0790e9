/-
  Bambu.Math.DominatorTree

  Immediate dominators, and the lists of dominators that are read off by following them upwards.

  The list of a node has the dominators of the node, the entry first, and begins with the list of
  each of them (`DomPath.mem_iff`, `DomPath.left`).  What two lists have in common is therefore the
  list of the deepest common dominator (`DomPath.common`).
-/

import Bambu.Math.Propagation
import Bambu.Math.Walk
import Mathlib.Data.List.Nodup

namespace Bambu.Math

variable {α : Type} {E : α → α → Prop} {entry a b c v : α}

/-! ## Dominance is an order -/

theorem Dominates.refl (a : α) : Dominates E entry a a := fun _ h => List.mem_of_getLast? h.last

theorem Dominates.of_entry (a : α) : Dominates E entry entry a := fun _ h =>
  List.mem_of_head? h.head

theorem Dominates.eq_entry (h : Dominates E entry a entry) : a = entry :=
  List.mem_singleton.mp (h _ (Walk.refl entry))

/-- What is visited on a walk is reached. -/
theorem Walk.reach {w : List α} (h : Walk E entry b w) (ha : a ∈ w) : ∃ p, Walk E entry a p := by
  obtain ⟨p, q, rfl⟩ := List.append_of_mem ha
  exact ⟨_, (walk_split.mp h).1⟩

theorem Dominates.trans (hab : Dominates E entry a b) (hbc : Dominates E entry b c) :
    Dominates E entry a c := by
  intro w hw
  obtain ⟨p, q, rfl⟩ := List.append_of_mem (hbc w hw)
  have ha := hab _ (walk_split.mp hw).1
  rw [List.append_cons]
  exact List.mem_append_left _ ha

theorem Dominates.antisymm (ha : ∃ w, Walk E entry a w) (hab : Dominates E entry a b)
    (hba : Dominates E entry b a) : a = b := by
  obtain ⟨w, hw⟩ := ha
  -- The walk is cut at its first visit of the node.
  obtain ⟨p, q, rfl, hp⟩ := exists_first_mem (List.mem_of_getLast? hw.last)
  obtain ⟨hpa, -⟩ := walk_split.mp hw
  rcases List.mem_append.mp (hba _ hpa) with hb | hb
  · obtain ⟨p₁, p₂, rfl⟩ := List.append_of_mem hb
    rw [List.append_assoc, List.cons_append] at hpa
    rcases List.mem_append.mp (hab _ (walk_split.mp hpa).1) with h | h
    · exact absurd (List.mem_append_left _ h) hp
    · exact List.mem_singleton.mp h
  · exact (List.mem_singleton.mp hb).symm

/-- A strict dominator of a node dominates its predecessors. -/
theorem Dominates.of_edge (h : Dominates E entry a b) (hne : a ≠ b) (hcb : E c b) :
    Dominates E entry a c := by
  intro w hw
  rcases List.mem_append.mp (h _ (hw.snoc hcb)) with ha | ha
  · exact ha
  · exact absurd (List.mem_singleton.mp ha) hne

/-- What dominates the predecessors of a node dominates the node. -/
theorem Dominates.of_callers (hne : b ≠ entry) (h : ∀ c, E c b → Dominates E entry a c) :
    Dominates E entry a b := by
  intro w hw
  obtain ⟨p, rfl⟩ := List.getLast?_eq_some_iff.mp hw.last
  have hp : p ≠ [] := by
    rintro rfl
    exact hne (Option.some.inj hw.head)
  obtain ⟨c, p', -, hwc, hcb⟩ := hw.unsnoc hp
  exact List.mem_append_left _ (h c hcb p hwc)

/-! ## Immediate dominators -/

/-- The immediate dominator of a node is the deepest of its strict dominators. -/
structure ImmediateDominators (E : α → α → Prop) (entry : α) (idom : α → α) : Prop where
  root : idom entry = entry
  dominates : ∀ v, (∃ w, Walk E entry v w) → v ≠ entry → Dominates E entry (idom v) v
  ne : ∀ v, (∃ w, Walk E entry v w) → v ≠ entry → idom v ≠ v
  deepest : ∀ v d, (∃ w, Walk E entry v w) → v ≠ entry → d ≠ v → Dominates E entry d v →
    Dominates E entry d (idom v)

/-- The list of a node and what is above it, the entry first. -/
inductive DomPath (entry : α) (idom : α → α) : List α → α → Prop where
  | root : DomPath entry idom [entry] entry
  | step {l : List α} {v : α} : v ≠ entry → DomPath entry idom l (idom v) →
      DomPath entry idom (l ++ [v]) v

section Paths

variable {idom : α → α} {l l' : List α}

theorem DomPath.last (h : DomPath entry idom l v) : ∃ p, l = p ++ [v] := by
  cases h with
  | root => exact ⟨[], rfl⟩
  | step _ _ => exact ⟨_, rfl⟩

theorem DomPath.unique (h : DomPath entry idom l v) (h' : DomPath entry idom l' v) : l = l' := by
  induction h generalizing l' with
  | root =>
    cases h' with
    | root => rfl
    | step hne _ => exact absurd rfl hne
  | step hne _ ih =>
    cases h' with
    | root => exact absurd rfl hne
    | step _ h' => rw [ih h']

/-- The list begins with the list of each of its nodes. -/
theorem DomPath.left {p q : List α} {x : α} (h : DomPath entry idom (p ++ x :: q) v) :
    DomPath entry idom (p ++ [x]) x := by
  generalize hl : p ++ x :: q = l at h
  induction h generalizing q with
  | root =>
    cases p with
    | nil =>
      obtain ⟨rfl, rfl⟩ := List.cons.inj hl
      exact .root
    | cons y p => simp at hl
  | @step l u hne hpath ih =>
    rcases List.eq_nil_or_concat' q with rfl | ⟨q', y, rfl⟩
    · obtain ⟨rfl, hx⟩ := List.append_inj' hl rfl
      obtain rfl := (List.cons.inj hx).1
      exact .step hne hpath
    · rw [← List.cons_append, ← List.append_assoc] at hl
      exact ih (List.append_inj' hl rfl).1

variable (hidom : ImmediateDominators E entry idom)

include hidom in
/-- The list of a node has its dominators. -/
theorem DomPath.mem_iff (h : DomPath entry idom l v) (hv : ∃ w, Walk E entry v w) (d : α) :
    d ∈ l ↔ Dominates E entry d v := by
  induction h with
  | root => exact ⟨fun hd => List.mem_singleton.mp hd ▸ .refl _, fun hd => by
      rw [hd.eq_entry]
      exact List.mem_singleton_self _⟩
  | @step l v hne _ ih =>
    have hdom := hidom.dominates v hv hne
    have hreach : ∃ w, Walk E entry (idom v) w := by
      obtain ⟨w, hw⟩ := hv
      exact hw.reach (hdom w hw)
    rw [List.mem_append, List.mem_singleton, ih hreach]
    constructor
    · rintro (hd | rfl)
      · exact hd.trans hdom
      · exact .refl _
    · intro hd
      by_cases hdv : d = v
      · exact .inr hdv
      · exact .inl (hidom.deepest v d hv hne hdv hd)

include hidom in
theorem DomPath.nodup (h : DomPath entry idom l v) (hv : ∃ w, Walk E entry v w) : l.Nodup := by
  induction h with
  | root => exact List.nodup_singleton _
  | @step l v hne hpath ih =>
    have hdom := hidom.dominates v hv hne
    have hreach : ∃ w, Walk E entry (idom v) w := by
      obtain ⟨w, hw⟩ := hv
      exact hw.reach (hdom w hw)
    refine List.nodup_append.mpr ⟨ih hreach, List.nodup_singleton v, fun x hx y hy => ?_⟩
    rintro rfl
    rw [List.mem_singleton] at hy
    subst hy
    have hback := (hpath.mem_iff hidom hreach x).mp hx
    exact hidom.ne x hv hne (Dominates.antisymm hreach hdom hback)

include hidom in
/-- In an acyclic graph every node that is reached has a list. -/
theorem exists_domPath {order : List α} (hforward : Forward E order)
    (hreach : ∀ v ∈ order, ∃ w, Walk E entry v w)
    (hcalled : ∀ v ∈ order, v ≠ entry → ∃ c ∈ order, E c v) :
    ∀ v ∈ order, ∃ l, DomPath entry idom l v := by
  have hall : ∀ v ∈ order, ∀ d, Dominates E entry d v → ∃ l, DomPath entry idom l d := by
    refine hforward.induction fun v hv hbefore => ?_
    have hstrict : ∀ d, Dominates E entry d v → d ≠ v → ∃ l, DomPath entry idom l d := by
      intro d hd hdv
      by_cases hentry : v = entry
      · subst hentry
        exact absurd hd.eq_entry hdv
      · obtain ⟨c, hc, hcv⟩ := hcalled v hv hentry
        exact hbefore c hc hcv d (hd.of_edge hdv hcv)
    intro d hd
    by_cases hdv : d = v
    · subst hdv
      by_cases hentry : d = entry
      · subst hentry
        exact ⟨_, .root⟩
      · obtain ⟨l, hl⟩ := hstrict (idom d) (hidom.dominates d (hreach d hv) hentry)
          (hidom.ne d (hreach d hv) hentry)
        exact ⟨_, .step hentry hl⟩
    · exact hstrict d hd hdv
  exact fun v hv => hall v hv v (.refl v)

include hidom in
/-- Two lists share the list of the deepest common dominator all of whose dominators are of a
    kind, as soon as what they share is as long as it can be. -/
theorem DomPath.common {ok : α → Prop} {p q q' : List α} {u : α}
    (hu : DomPath entry idom (p ++ q) u) (hv : DomPath entry idom (p ++ q') v)
    (hureach : ∃ w, Walk E entry u w) (hvreach : ∃ w, Walk E entry v w)
    (hok : ∀ x ∈ p, ok x) (hp : p ≠ [])
    (hmax : ∀ x r r', q = x :: r → q' = x :: r' → ¬ ok x) :
    ∃ d, DomPath entry idom p d ∧ Dominates E entry d u ∧ Dominates E entry d v ∧
      (∀ x, Dominates E entry x d → ok x) ∧
      ∀ x, Dominates E entry x u → Dominates E entry x v →
        (∀ y, Dominates E entry y x → ok y) → Dominates E entry x d := by
  obtain ⟨p', d, rfl⟩ : ∃ p' d, p = p' ++ [d] :=
    ⟨p.dropLast, p.getLast hp, (List.dropLast_append_getLast hp).symm⟩
  have hd : DomPath entry idom (p' ++ [d]) d := by
    rw [List.append_assoc] at hu
    exact hu.left
  have hdu : Dominates E entry d u := (hu.mem_iff hidom hureach d).mp (by simp)
  have hdv : Dominates E entry d v := (hv.mem_iff hidom hvreach d).mp (by simp)
  have hdreach : ∃ w, Walk E entry d w := by
    obtain ⟨w, hw⟩ := hureach
    exact hw.reach (hdu w hw)
  refine ⟨d, hd, hdu, hdv, fun x hx => hok x ((hd.mem_iff hidom hdreach x).mpr hx), ?_⟩
  intro x hxu hxv hxok
  obtain ⟨s, t, hs⟩ := List.append_of_mem ((hu.mem_iff hidom hureach x).mpr hxu)
  obtain ⟨s', t', hs'⟩ := List.append_of_mem ((hv.mem_iff hidom hvreach x).mpr hxv)
  have hsx := (hs ▸ hu).left
  obtain ⟨hss, -⟩ := List.append_inj' (hsx.unique (hs' ▸ hv).left) rfl
  subst hss
  rw [← hd.mem_iff hidom hdreach]
  have hxreach : ∃ w, Walk E entry x w := by
    obtain ⟨w, hw⟩ := hureach
    exact hw.reach (hxu w hw)
  -- Either the list of the node is part of what is shared, or more could be shared.
  rcases List.append_eq_append_iff.mp hs with ⟨m, hm, hq⟩ | ⟨m, hm, hq⟩
  · cases m with
    | nil =>
      rw [List.append_nil] at hm
      subst hm
      rw [List.nil_append] at hq
      have hq' : q' = x :: t' := List.append_cancel_left hs'
      exact absurd (hxok x (.refl x)) (hmax x t t' hq hq')
    | cons y m =>
      subst hm
      have hq' : q' = y :: (m ++ x :: t') := by
        exact List.append_cancel_left (hs'.trans (List.append_assoc ..))
      refine absurd (hxok y ?_) (hmax y _ _ hq hq')
      rw [← hsx.mem_iff hidom hxreach]
      simp
  · cases m with
    | nil =>
      rw [List.append_nil] at hm
      rw [List.nil_append] at hq
      have hq' : q' = x :: t' := by
        rw [hm] at hs'
        exact List.append_cancel_left hs'
      exact absurd (hxok x (.refl x)) (hmax x t t' hq.symm hq')
    | cons y m =>
      obtain ⟨rfl, -⟩ := List.cons.inj hq
      rw [hm]
      simp

end Paths

end Bambu.Math
