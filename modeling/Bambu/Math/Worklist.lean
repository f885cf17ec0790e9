/-
  Bambu.Math.Worklist

  A worklist over nodes that hold values: the least active node is taken out, the operations
  that use it are run one after the other, and the sink of each one that reports a change
  becomes active.

  The loop ends when every reported change raises the rank of the value its sink holds, and
  ranks are bounded: what is left to rise (`potential`) goes down with each change, and
  between two changes the active set shrinks, and then the list of pending operations.

  An operation whose values have changed since it was last run is pending or active
  (`Settling`), so that at the end every operation holds of the values.

  `Fifo` is a worklist that is a queue, for invariants of the loop (`run_invariant`).
-/

import Mathlib.Algebra.Order.BigOperators.Group.Finset
import Mathlib.Data.Finset.Max
import Mathlib.Data.Prod.Lex

namespace Bambu.Math

/-- The graph: the operations that use a node, the sink of an operation, and what it makes of
the values of all nodes: the next value of its sink, and whether it reports a change. -/
structure Worklist (ι α Op ε : Type) where
  uses : ι → List Op
  sink : Op → ι
  meet : Op → (ι → α) → Except ε (α × Bool)

namespace Worklist

variable {ι α Op ε : Type} [LinearOrder ι]

/-- A state of the loop: the values, the operations left of the node taken out last, and the
active nodes. -/
structure Config (ι α Op : Type) where
  store : ι → α
  pending : List Op
  active : Finset ι

/-- Nothing is left to do. -/
def Config.Done (c : Config ι α Op) : Prop := c.pending = [] ∧ c.active = ∅

/-- One operation, or one node. -/
def step (W : Worklist ι α Op ε) (c : Config ι α Op) : Except ε (Config ι α Op) :=
  match c.pending with
  | op :: ops => do
    let (value, modified) ← W.meet op c.store
    .ok ⟨Function.update c.store (W.sink op) value, ops,
      if modified then insert (W.sink op) c.active else c.active⟩
  | [] =>
    if h : c.active.Nonempty then
      .ok ⟨c.store, W.uses (c.active.min' h), c.active.erase (c.active.min' h)⟩
    else .ok c

/-- So many steps. -/
def run (W : Worklist ι α Op ε) : Nat → Config ι α Op → Except ε (Config ι α Op)
  | 0, c => .ok c
  | n + 1, c => W.step c >>= W.run n

/-! ## The end of the loop -/

/-- An operation of the graph. -/
def IsOp (W : Worklist ι α Op ε) (op : Op) : Prop := ∃ i, op ∈ W.uses i

/-- What a condition `C` on the operations that are run gives for stores with `Inv`: the value
of the sink does not go down in rank, rises when a change is reported, and stays bounded. -/
structure Rises (W : Worklist ι α Op ε) (rank : α → Nat) (bound : ι → Nat)
    (Inv : (ι → α) → Prop) (C : Op → (ι → α) → Prop) : Prop where
  meet : ∀ op s, W.IsOp op → Inv s → C op s → ∃ value modified, W.meet op s = .ok (value, modified) ∧
    Inv (Function.update s (W.sink op) value) ∧ rank (s (W.sink op)) ≤ rank value ∧
      rank value ≤ bound (W.sink op) ∧ (modified = true → rank (s (W.sink op)) < rank value)

/-- How far the values can still rise. -/
def potential (rank : α → Nat) (bound : ι → Nat) (nodes : Finset ι) (s : ι → α) : Nat :=
  ∑ i ∈ nodes, (bound i - rank (s i))

/-- What goes down with every step. -/
def remaining (rank : α → Nat) (bound : ι → Nat) (nodes : Finset ι) (c : Config ι α Op) :
    Nat ×ₗ Nat ×ₗ Nat :=
  toLex (potential rank bound nodes c.store, toLex (c.active.card, c.pending.length))

section Ends

variable {W : Worklist ι α Op ε} {rank : α → Nat} {bound : ι → Nat} {nodes : Finset ι}
  {Inv : (ι → α) → Prop} {C : Op → (ι → α) → Prop}

theorem potential_update_le {s : ι → α} {i : ι} {value : α} (h : rank (s i) ≤ rank value) :
    potential rank bound nodes (Function.update s i value) ≤ potential rank bound nodes s := by
  refine Finset.sum_le_sum fun j _ => ?_
  rcases eq_or_ne j i with rfl | hne
  · rw [Function.update_self]
    omega
  · rw [Function.update_of_ne hne]

theorem potential_update_lt {s : ι → α} {i : ι} {value : α} (hi : i ∈ nodes)
    (h : rank (s i) < rank value) (hb : rank value ≤ bound i) :
    potential rank bound nodes (Function.update s i value) < potential rank bound nodes s := by
  refine Finset.sum_lt_sum (fun j _ => ?_) ⟨i, hi, ?_⟩
  · rcases eq_or_ne j i with rfl | hne
    · rw [Function.update_self]
      omega
    · rw [Function.update_of_ne hne]
  · rw [Function.update_self]
    omega

/-- One step of a loop that is not done: it succeeds, keeps the invariant, and lowers what
remains. -/
theorem step_spec (hrises : W.Rises rank bound Inv C)
    (hsinks : ∀ op, W.IsOp op → W.sink op ∈ nodes) {c : Config ι α Op} (hinv : Inv c.store)
    (hpending : ∀ op ∈ c.pending, W.IsOp op)
    (hC : ∀ op ops, c.pending = op :: ops → C op c.store) (hdone : ¬ c.Done) :
    ∃ c', W.step c = .ok c' ∧ Inv c'.store ∧ (∀ op ∈ c'.pending, W.IsOp op) ∧
      remaining rank bound nodes c' < remaining rank bound nodes c := by
  obtain ⟨s, pending, active⟩ := c
  unfold step
  cases pending with
  | cons op ops =>
    have hop : W.IsOp op := hpending op List.mem_cons_self
    obtain ⟨value, modified, hmeet, hinv', hle, hb, hlt⟩ :=
      hrises.meet op s hop hinv (hC op ops rfl)
    simp only [hmeet]
    refine ⟨_, rfl, hinv', fun op' h' => hpending op' (List.mem_cons_of_mem _ h'), ?_⟩
    cases modified with
    | true =>
      exact Prod.Lex.toLex_lt_toLex.mpr
        (.inl (potential_update_lt (hsinks op hop) (hlt rfl) hb))
    | false =>
      -- Without a change the list of operations gets shorter.
      refine Prod.Lex.toLex_lt_toLex.mpr ((potential_update_le hle).lt_or_eq.imp_right fun heq =>
        ⟨heq, Prod.Lex.toLex_lt_toLex.mpr (.inr ⟨rfl, Nat.lt_succ_self _⟩)⟩)
  | nil =>
    have hne : active.Nonempty := by
      rw [Finset.nonempty_iff_ne_empty]
      exact fun h => hdone ⟨rfl, h⟩
    simp only [dif_pos hne]
    refine ⟨_, rfl, hinv, fun op h => ⟨_, h⟩, ?_⟩
    refine Prod.Lex.toLex_lt_toLex.mpr (.inr ⟨rfl, Prod.Lex.toLex_lt_toLex.mpr (.inl ?_)⟩)
    exact Finset.card_erase_lt_of_mem (Finset.min'_mem active hne)

/-- The loop ends, if all the operations that it runs meet the condition. -/
theorem run_done (hrises : W.Rises rank bound Inv C)
    (hsinks : ∀ op, W.IsOp op → W.sink op ∈ nodes) (c : Config ι α Op) (hinv : Inv c.store)
    (hpending : ∀ op ∈ c.pending, W.IsOp op)
    (hC : ∀ n c', W.run n c = .ok c' → ∀ op ops, c'.pending = op :: ops → C op c'.store) :
    ∃ n c', W.run n c = .ok c' ∧ c'.Done := by
  induction hm : remaining rank bound nodes c using WellFoundedLT.induction generalizing c with
  | ind m ih =>
    by_cases hdone : c.Done
    · exact ⟨0, c, rfl, hdone⟩
    obtain ⟨c₁, hstep, hinv₁, hpending₁, hlt⟩ :=
      step_spec hrises hsinks hinv hpending (hC 0 c rfl) hdone
    have hrun : ∀ n, W.run (n + 1) c = W.run n c₁ := fun n => by
      show (W.step c >>= W.run n) = _
      rw [hstep]
      rfl
    obtain ⟨n, c', hn, hdone'⟩ := ih _ (hm ▸ hlt) c₁ hinv₁ hpending₁
      (fun n c' h => hC (n + 1) c' ((hrun n).trans h)) rfl
    exact ⟨n + 1, c', (hrun n).trans hn, hdone'⟩

end Ends

/-! ## What holds at the end -/

section Settles

variable (W : Worklist ι α Op ε) (ops : Set Op) (Inv : (ι → α) → Prop)
  (C Holds : Op → (ι → α) → Prop)

/-- Every operation holds, or is still going to be run. -/
def Covered (c : Config ι α Op) : Prop :=
  ∀ op ∈ ops, Holds op c.store ∨ op ∈ c.pending ∨ ∃ i ∈ c.active, op ∈ W.uses i

/-- What running an operation with `C` does for `Holds`: it holds then, and so do the others that
held and do not use its sink. -/
structure Settles : Prop where
  uses_mem : ∀ i, ∀ op ∈ W.uses i, op ∈ ops
  meet : ∀ op ∈ ops, ∀ s value modified, Inv s → C op s → W.meet op s = .ok (value, modified) →
    Inv (Function.update s (W.sink op) value) ∧
      (modified = false → Function.update s (W.sink op) value = s ∧ Holds op s) ∧
      ∀ op' ∈ ops, op' ∉ W.uses (W.sink op) → op' = op ∨ Holds op' s →
        Holds op' (Function.update s (W.sink op) value)

/-- The stores have the invariant, and no operation is forgotten. -/
structure Settling (c : Config ι α Op) : Prop where
  inv : Inv c.store
  pending : ∀ op ∈ c.pending, op ∈ ops
  covered : W.Covered ops Holds c

variable {W ops Inv C Holds} {c c' : Config ι α Op}

theorem Settling.step (hsettles : W.Settles ops Inv C Holds) (h : W.Settling ops Inv Holds c)
    (hC : ∀ op rest, c.pending = op :: rest → C op c.store) (hstep : W.step c = .ok c') :
    W.Settling ops Inv Holds c' := by
  obtain ⟨s, pending, active⟩ := c
  unfold Worklist.step at hstep
  cases pending with
  | cons op rest =>
    have hop : op ∈ ops := h.pending op List.mem_cons_self
    cases hmeet : W.meet op s with
    | error e =>
      simp only [hmeet] at hstep
      cases hstep
    | ok r =>
      obtain ⟨value, modified⟩ := r
      simp only [hmeet] at hstep
      obtain rfl := Except.ok.inj hstep
      obtain ⟨hinv, hsame, hothers⟩ :=
        hsettles.meet op hop s value modified h.inv (hC op rest rfl) hmeet
      -- What the operation leaves unsettled uses its sink, which is active now.
      have hnext : ∀ op' ∈ ops, op' = op ∨ Holds op' s →
          Holds op' (Function.update s (W.sink op) value) ∨
            ∃ i ∈ if modified then insert (W.sink op) active else active, op' ∈ W.uses i := by
        intro op' hop' hor
        by_cases huse : op' ∈ W.uses (W.sink op)
        · cases modified with
          | false =>
            obtain ⟨heq, hholds⟩ := hsame rfl
            rw [heq]
            exact .inl (hor.elim (fun h => h ▸ hholds) id)
          | true => exact .inr ⟨_, Finset.mem_insert_self _ _, huse⟩
        · exact .inl (hothers op' hop' huse hor)
      refine ⟨hinv, fun op' hop' => h.pending op' (List.mem_cons_of_mem op hop'), fun op' hop' => ?_⟩
      rcases h.covered op' hop' with hholds | hpend | ⟨i, hi, huse⟩
      · exact (hnext op' hop' (.inr hholds)).imp_right .inr
      · rcases List.mem_cons.mp hpend with rfl | hrest
        · exact (hnext op' hop' (.inl rfl)).imp_right .inr
        · exact .inr (.inl hrest)
      · exact .inr (.inr ⟨i, by cases modified <;> simp [hi], huse⟩)
  | nil =>
    by_cases hne : active.Nonempty
    · simp only [dif_pos hne] at hstep
      obtain rfl := Except.ok.inj hstep
      refine ⟨h.inv, hsettles.uses_mem _, fun op' hop' => ?_⟩
      rcases h.covered op' hop' with hholds | hpend | ⟨i, hi, huse⟩
      · exact .inl hholds
      · exact absurd hpend List.not_mem_nil
      · by_cases hi' : i = active.min' hne
        · exact .inr (.inl (hi' ▸ huse))
        · exact .inr (.inr ⟨i, Finset.mem_erase.mpr ⟨hi', hi⟩, huse⟩)
    · simp only [dif_neg hne] at hstep
      obtain rfl := Except.ok.inj hstep
      exact h

/-- Run lemma, for runs whose operations all meet `C`. -/
theorem Settling.run (hsettles : W.Settles ops Inv C Holds) (n : Nat) {c : Config ι α Op}
    (h : W.Settling ops Inv Holds c)
    (hC : ∀ m d, W.run m c = .ok d → ∀ op rest, d.pending = op :: rest → C op d.store)
    (hrun : W.run n c = .ok c') : W.Settling ops Inv Holds c' := by
  induction n generalizing c with
  | zero =>
    obtain rfl := Except.ok.inj hrun
    exact h
  | succ n ih =>
    change W.step c >>= W.run n = .ok c' at hrun
    cases hstep : W.step c with
    | error e =>
      rw [hstep] at hrun
      cases hrun
    | ok d =>
      rw [hstep] at hrun
      refine ih (h.step hsettles (hC 0 c rfl) hstep) (fun m e he => hC (m + 1) e ?_) hrun
      change W.step c >>= W.run m = .ok e
      rw [hstep]
      exact he

omit [LinearOrder ι] in
/-- At the end every operation holds. -/
theorem Settling.holds (h : W.Settling ops Inv Holds c) (hdone : c.Done) :
    ∀ op ∈ ops, Holds op c.store := by
  intro op hop
  rcases h.covered op hop with hholds | hpend | ⟨i, hi, -⟩
  · exact hholds
  · rw [hdone.1] at hpend
    exact absurd hpend List.not_mem_nil
  · rw [hdone.2] at hi
    exact absurd hi (Finset.notMem_empty i)

end Settles

end Worklist

/-! ## One value -/

/-- A sequence of values that rise in a bounded rank when they change changes only finitely
often. -/
theorem exists_forall_ge_eq {α : Type} {rank : α → Nat} {bound : Nat} {s : Nat → α}
    (hrise : ∀ n, s (n + 1) = s n ∨ rank (s n) < rank (s (n + 1)))
    (hbound : ∀ n, rank (s n) ≤ bound) : ∃ N, ∀ n, N ≤ n → s n = s N := by
  have hmono : Monotone (rank ∘ s) := monotone_nat_of_le_succ fun n =>
    (hrise n).elim (fun h => by rw [Function.comp, Function.comp, h]) Nat.le_of_lt
  -- From where the rank is greatest on, nothing can change any more.
  obtain ⟨N, hN⟩ : ∃ N, ∀ n, rank (s n) ≤ rank (s N) := by
    by_contra hnone
    push Not at hnone
    have hgrow : ∀ k, ∃ n, k ≤ rank (s n) := by
      intro k
      induction k with
      | zero => exact ⟨0, Nat.zero_le _⟩
      | succ k ih =>
        obtain ⟨n, hn⟩ := ih
        obtain ⟨m, hm⟩ := hnone n
        exact ⟨m, by omega⟩
    obtain ⟨n, hn⟩ := hgrow (bound + 1)
    have hb := hbound n
    omega
  refine ⟨N, fun n hn => ?_⟩
  induction n, hn using Nat.le_induction with
  | base => rfl
  | succ n hn ih =>
    refine ((hrise n).resolve_right fun hlt => ?_).trans ih
    have h1 := hN (n + 1)
    have h2 : rank (s N) ≤ rank (s n) := hmono hn
    omega

/-! ## First in, first out -/

namespace Fifo

variable {ι σ ε : Type} [DecidableEq ι]

/-- A node is on the list at most once. -/
def pushBack (work : List ι) (i : ι) : List ι := if i ∈ work then work else work ++ [i]

/-- The node in front is visited, and what the visit names is put at the end. -/
def step (visit : ι → σ → Except ε (σ × List ι)) : σ × List ι → Except ε (σ × List ι)
  | (s, []) => .ok (s, [])
  | (s, i :: work) => do
    let (s, next) ← visit i s
    .ok (s, next.foldl pushBack work)

/-- So many visits. -/
def run (visit : ι → σ → Except ε (σ × List ι)) : Nat → σ × List ι → Except ε (σ × List ι)
  | 0, c => .ok c
  | n + 1, c => step visit c >>= run visit n

section Invariant

variable {visit : ι → σ → Except ε (σ × List ι)} {Inv : σ → Prop}

theorem step_invariant (hvisit : ∀ i s s' next, Inv s → visit i s = .ok (s', next) → Inv s')
    {c c' : σ × List ι} (hinv : Inv c.1) (hstep : step visit c = .ok c') : Inv c'.1 := by
  obtain ⟨s, work⟩ := c
  cases work with
  | nil =>
    obtain rfl : (s, []) = c' := Except.ok.inj hstep
    exact hinv
  | cons i work =>
    change (visit i s >>= fun r => .ok (r.1, r.2.foldl pushBack work)) = .ok c' at hstep
    cases hi : visit i s with
    | error e =>
      rw [hi] at hstep
      cases hstep
    | ok r =>
      rw [hi] at hstep
      obtain rfl := Except.ok.inj hstep
      exact hvisit i s r.1 r.2 hinv hi

/-- What every visit keeps holds in the end, in whatever order the nodes are visited. -/
theorem run_invariant (hvisit : ∀ i s s' next, Inv s → visit i s = .ok (s', next) → Inv s')
    {n : Nat} {c c' : σ × List ι} (hinv : Inv c.1) (hrun : run visit n c = .ok c') : Inv c'.1 := by
  induction n generalizing c with
  | zero =>
    obtain rfl : c = c' := Except.ok.inj hrun
    exact hinv
  | succ n ih =>
    change step visit c >>= run visit n = .ok c' at hrun
    cases hs : step visit c with
    | error e =>
      rw [hs] at hrun
      cases hrun
    | ok d =>
      rw [hs] at hrun
      exact ih (step_invariant hvisit hinv hs) hrun

end Invariant

end Fifo

end Bambu.Math
