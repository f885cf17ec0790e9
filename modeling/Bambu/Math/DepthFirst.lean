/-
  Bambu.Math.DepthFirst

  Forests and their depth-first numbers: the interval from discovery to the finish of a node
  contains the one of another node exactly when the node is an ancestor.
-/

import Mathlib.Data.List.Nodup

namespace Bambu.Math

/-- An ordered forest: a first tree, by its root and the trees below, and the trees after it. -/
inductive Forest (α : Type) where
  | nil
  | node (root : α) (children siblings : Forest α)
  deriving DecidableEq

namespace Forest

variable {α : Type}

/-- The nodes, in the order of their discovery. -/
def nodes : Forest α → List α
  | nil => []
  | node root children siblings => root :: (children.nodes ++ siblings.nodes)

/-- The first node is a proper ancestor of the second one. -/
def Above : Forest α → α → α → Prop
  | nil, _, _ => False
  | node root children siblings, a, b =>
    (a = root ∧ b ∈ children.nodes) ∨ children.Above a b ∨ siblings.Above a b

instance decidableAbove [DecidableEq α] : (f : Forest α) → (a b : α) → Decidable (f.Above a b)
  | nil, _, _ => inferInstanceAs (Decidable False)
  | node root children siblings, a, b =>
    have := decidableAbove children a b
    have := decidableAbove siblings a b
    inferInstanceAs (Decidable ((a = root ∧ b ∈ children.nodes) ∨ _ ∨ _))

/-- One of two nodes is an ancestor of the other one, or they are the same. -/
def Related (f : Forest α) (a b : α) : Prop :=
  a = b ∨ f.Above a b ∨ f.Above b a

/-- The steps of discovery and of the finish of every node, with the step after the last one. -/
def number : Forest α → Nat → List (α × Nat × Nat) × Nat
  | nil, step => ([], step)
  | node root children siblings, step =>
    let inner := children.number (step + 1)
    let rest := siblings.number (inner.2 + 1)
    ((root, step, inner.2) :: (inner.1 ++ rest.1), rest.2)

variable {f : Forest α} {a b c : α}

theorem Above.left_mem (h : f.Above a b) : a ∈ f.nodes := by
  induction f with
  | nil => exact h.elim
  | node root children siblings ihc ihs =>
    rw [nodes, List.mem_cons, List.mem_append]
    obtain ⟨rfl, -⟩ | h | h := h
    · exact Or.inl rfl
    · exact Or.inr (Or.inl (ihc h))
    · exact Or.inr (Or.inr (ihs h))

theorem Above.right_mem (h : f.Above a b) : b ∈ f.nodes := by
  induction f with
  | nil => exact h.elim
  | node root children siblings ihc ihs =>
    rw [nodes, List.mem_cons, List.mem_append]
    obtain ⟨-, h⟩ | h | h := h
    · exact Or.inr (Or.inl h)
    · exact Or.inr (Or.inl (ihc h))
    · exact Or.inr (Or.inr (ihs h))

theorem number_nodes (f : Forest α) (step : Nat) :
    (f.number step).1.map (fun e => e.1) = f.nodes := by
  induction f generalizing step with
  | nil => rfl
  | node root children siblings ihc ihs =>
    simp only [number, nodes, List.map_cons, List.map_append, ihc, ihs]

/-- Steps only go up. -/
theorem number_step (f : Forest α) (step : Nat) : step ≤ (f.number step).2 := by
  induction f generalizing step with
  | nil => exact Nat.le_refl _
  | node root children siblings ihc ihs =>
    have hc := ihc (step + 1)
    have hs := ihs ((children.number (step + 1)).2 + 1)
    simp only [number]
    omega

/-- The interval of a node is not empty, and within the steps of the forest. -/
theorem number_bounds {e : α × Nat × Nat} {step : Nat} (he : e ∈ (f.number step).1) :
    step ≤ e.2.1 ∧ e.2.1 < e.2.2 ∧ e.2.2 < (f.number step).2 := by
  induction f generalizing step with
  | nil => exact absurd he List.not_mem_nil
  | node root children siblings ihc ihs =>
    have hc := number_step children (step + 1)
    have hs := number_step siblings ((children.number (step + 1)).2 + 1)
    rw [number, List.mem_cons, List.mem_append] at he
    simp only [number]
    obtain rfl | he | he := he
    · exact ⟨Nat.le_refl _, hc, hs⟩
    · have := ihc he
      omega
    · have := ihs he
      omega

theorem mem_nodes_of_number {e : α × Nat × Nat} {step : Nat} (he : e ∈ (f.number step).1) :
    e.1 ∈ f.nodes := by
  rw [← number_nodes f step]
  exact List.mem_map_of_mem he

/-- The interval of one node is properly inside of the interval of the other one exactly when the
other one is an ancestor. -/
theorem number_inside_iff (hf : f.nodes.Nodup) {d e : α × Nat × Nat} {step : Nat}
    (hd : d ∈ (f.number step).1) (he : e ∈ (f.number step).1) :
    (d.2.1 < e.2.1 ∧ e.2.2 < d.2.2) ↔ f.Above d.1 e.1 := by
  induction f generalizing step with
  | nil => exact absurd hd List.not_mem_nil
  | node root children siblings ihc ihs =>
    rw [nodes, List.nodup_cons, List.mem_append, List.nodup_append] at hf
    obtain ⟨hroot, hc, hs, hapart⟩ := hf
    rw [number, List.mem_cons, List.mem_append] at hd he
    simp only [Above]
    -- Ancestors that the names of the nodes exclude.
    have hnot_root : ∀ {x y}, children.Above x y ∨ siblings.Above x y → x ≠ root ∧ y ≠ root := by
      intro x y h
      refine ⟨fun hx => hroot ?_, fun hy => hroot ?_⟩
      · exact h.imp (fun h => hx ▸ h.left_mem) (fun h => hx ▸ h.left_mem)
      · exact h.imp (fun h => hy ▸ h.right_mem) (fun h => hy ▸ h.right_mem)
    obtain rfl | hd | hd := hd <;> obtain rfl | he | he := he
    case inl.inl =>
      refine iff_of_false (fun h => absurd h.1 (Nat.lt_irrefl _)) ?_
      rintro (⟨-, h⟩ | h)
      · exact hroot (Or.inl h)
      · exact (hnot_root h).1 rfl
    case inl.inr.inl =>
      have hin := number_bounds he
      exact iff_of_true ⟨hin.1, hin.2.2⟩ (Or.inl ⟨rfl, mem_nodes_of_number he⟩)
    case inl.inr.inr =>
      have hin := number_bounds he
      refine iff_of_false (fun h => ?_) ?_
      · exact absurd (Nat.lt_trans hin.2.1 h.2) (Nat.not_lt.mpr (Nat.le_of_succ_le hin.1))
      rintro (⟨-, h⟩ | h)
      · exact hapart _ h _ (mem_nodes_of_number he) rfl
      · exact (hnot_root h).1 rfl
    case inr.inl.inl =>
      have hin := number_bounds hd
      refine iff_of_false (fun h => ?_) ?_
      · exact absurd h.1 (Nat.not_lt.mpr (Nat.le_of_succ_le hin.1))
      rintro (⟨-, h⟩ | h)
      · exact hroot (Or.inl h)
      · exact (hnot_root h).2 rfl
    case inr.inr.inl =>
      have hin := number_bounds hd
      refine iff_of_false (fun h => ?_) ?_
      · have := number_step children (step + 1)
        exact absurd h.1 (by dsimp only; omega)
      rintro (⟨-, h⟩ | h)
      · exact hroot (Or.inl h)
      · exact (hnot_root h).2 rfl
    case inr.inl.inr.inl =>
      rw [ihc hc hd he]
      refine ⟨fun h => Or.inr (Or.inl h), ?_⟩
      rintro (⟨hx, -⟩ | h | h)
      · exact absurd (Or.inl (hx ▸ mem_nodes_of_number hd)) hroot
      · exact h
      · exact absurd rfl (hapart _ (mem_nodes_of_number hd) _ h.left_mem)
    case inr.inl.inr.inr =>
      have hin := number_bounds hd
      have hin' := number_bounds he
      refine iff_of_false (fun h => by omega) ?_
      rintro (⟨-, h⟩ | h | h)
      · exact hapart _ h _ (mem_nodes_of_number he) rfl
      · exact hapart _ h.right_mem _ (mem_nodes_of_number he) rfl
      · exact hapart _ (mem_nodes_of_number hd) _ h.left_mem rfl
    case inr.inr.inr.inl =>
      have hin := number_bounds hd
      have hin' := number_bounds he
      refine iff_of_false (fun h => by omega) ?_
      rintro (⟨hx, -⟩ | h | h)
      · exact hroot (Or.inr (hx ▸ mem_nodes_of_number hd))
      · exact hapart _ h.left_mem _ (mem_nodes_of_number hd) rfl
      · exact hapart _ (mem_nodes_of_number he) _ h.right_mem rfl
    case inr.inr.inr.inr =>
      rw [ihs hs hd he]
      refine ⟨fun h => Or.inr (Or.inr h), ?_⟩
      rintro (⟨hx, -⟩ | h | h)
      · exact absurd (Or.inr (hx ▸ mem_nodes_of_number hd)) hroot
      · exact absurd rfl (hapart _ h.left_mem _ (mem_nodes_of_number hd))
      · exact h

/-- A node is discovered, and finished, in a step of its own. -/
theorem number_injective (hf : f.nodes.Nodup) {d e : α × Nat × Nat} {step : Nat}
    (hd : d ∈ (f.number step).1) (he : e ∈ (f.number step).1)
    (hstep : d.2.1 = e.2.1 ∨ d.2.2 = e.2.2) : d = e := by
  induction f generalizing step with
  | nil => exact absurd hd List.not_mem_nil
  | node root children siblings ihc ihs =>
    rw [nodes, List.nodup_cons, List.nodup_append] at hf
    rw [number, List.mem_cons, List.mem_append] at hd he
    obtain rfl | hd | hd := hd <;> obtain rfl | he | he := he
    case inl.inl => rfl
    case inr.inl.inr.inl => exact ihc hf.2.1 hd he
    case inr.inr.inr.inr => exact ihs hf.2.2.1 hd he
    case inl.inr.inl | inl.inr.inr =>
      have hc := number_step children (step + 1)
      have hin := number_bounds he
      dsimp only at hstep
      omega
    case inr.inl.inl | inr.inr.inl =>
      have hc := number_step children (step + 1)
      have hin := number_bounds hd
      dsimp only at hstep
      omega
    case inr.inl.inr.inr | inr.inr.inr.inl =>
      have := number_bounds hd
      have := number_bounds he
      omega

theorem exists_number (ha : a ∈ f.nodes) (step : Nat) : ∃ e ∈ (f.number step).1, e.1 = a := by
  rw [← number_nodes f step] at ha
  exact List.mem_map.mp ha

theorem Above.irrefl (hf : f.nodes.Nodup) (h : f.Above a a) : False := by
  obtain ⟨d, hd, rfl⟩ := exists_number h.left_mem 0
  exact absurd ((number_inside_iff hf hd hd).mpr h).1 (Nat.lt_irrefl _)

theorem Above.trans (hf : f.nodes.Nodup) (hab : f.Above a b) (hbc : f.Above b c) : f.Above a c := by
  obtain ⟨d, hd, rfl⟩ := exists_number hab.left_mem 0
  obtain ⟨e, he, rfl⟩ := exists_number hab.right_mem 0
  obtain ⟨g, hg, rfl⟩ := exists_number hbc.right_mem 0
  have hde := (number_inside_iff hf hd he).mpr hab
  have heg := (number_inside_iff hf he hg).mpr hbc
  exact (number_inside_iff hf hd hg).mp ⟨Nat.lt_trans hde.1 heg.1, Nat.lt_trans heg.2 hde.2⟩

/-- The ancestors of a node are ancestors of each other. -/
theorem Above.related (hf : f.nodes.Nodup) (hac : f.Above a c) (hbc : f.Above b c) :
    f.Related a b := by
  induction f with
  | nil => exact hac.elim
  | node root children siblings ihc ihs =>
    rw [nodes, List.nodup_cons, List.mem_append, List.nodup_append] at hf
    obtain ⟨-, hc, hs, hapart⟩ := hf
    obtain ⟨rfl, hac⟩ | hac | hac := hac <;> obtain ⟨rfl, hbc⟩ | hbc | hbc := hbc
    · exact Or.inl rfl
    · exact Or.inr (Or.inl (Or.inl ⟨rfl, hbc.left_mem⟩))
    · exact absurd rfl (hapart _ hac _ hbc.right_mem)
    · exact Or.inr (Or.inr (Or.inl ⟨rfl, hac.left_mem⟩))
    · exact (ihc hc hac hbc).imp_right
        (Or.imp (fun h => Or.inr (Or.inl h)) (fun h => Or.inr (Or.inl h)))
    · exact absurd rfl (hapart _ hac.right_mem _ hbc.right_mem)
    · exact absurd rfl (hapart _ hbc _ hac.right_mem)
    · exact absurd rfl (hapart _ hbc.right_mem _ hac.right_mem)
    · exact (ihs hs hac hbc).imp_right
        (Or.imp (fun h => Or.inr (Or.inr h)) (fun h => Or.inr (Or.inr h)))

theorem Related.symm (h : f.Related a b) : f.Related b a :=
  h.elim (fun h => Or.inl h.symm) (fun h => Or.inr h.symm)

end Forest

end Bambu.Math
