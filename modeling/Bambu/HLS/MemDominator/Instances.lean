/-
  Bambu.HLS.MemDominator.Instances

  `compute_instances` of `mem_dominator_allocation`: how many times the memory allocation believes
  a function to be instantiated.

  An edge whose callee the caller limits to a single unit overwrites the count with one, whatever
  was counted before and however often the caller itself is instantiated.  What is left is the
  number of chains of call points from the last such edge on (`num_instances_eq`), so that a count
  of one is right exactly where the limited functions are unique (`num_instances_unique_iff`).
-/

import Bambu.Math.Propagation
import Mathlib.Data.List.DropRight

namespace Bambu
namespace HLS

open Bambu.Math

/-! ## The source -/

/-- The call graph of a top function, with what the allocation of memories asks about it. -/
structure CallGraph (α : Type) where
  /-- The callees, one edge for each. -/
  out_edges : α → List α
  nodup : ∀ f, (out_edges f).Nodup
  /-- `CGetEdgeInfo(e).direct_call_points.size()` -/
  direct_call_points : α → α → Nat
  /-- `HLS_C->get_number_fu` of the caller, for the unit of the callee. -/
  get_number_fu : α → α → Nat
  is_a_proxied_function : α → Bool
  hasToBeInterfaced : α → Bool

namespace CallGraph

variable {α : Type} [DecidableEq α] (G : CallGraph α) (memory_mapped_top : Bool)

/-- The edge sets the count of its target to one. -/
def overwrites (f_id tgt : α) : Bool :=
  G.is_a_proxied_function tgt || (memory_mapped_top && G.hasToBeInterfaced f_id) ||
    G.get_number_fu f_id tgt = 1

/-- One edge of `compute_instances`; the counts are `unsigned int`. -/
def countEdge (f_id : α) (cur_instances : BitVec 32) (num_instances : α → Option (BitVec 32))
    (tgt : α) : α → Option (BitVec 32) :=
  if G.is_a_proxied_function tgt || (memory_mapped_top && G.hasToBeInterfaced f_id) then
    Function.update num_instances tgt (some 1)
  else if G.get_number_fu f_id tgt = 1 then
    Function.update num_instances tgt (some 1)
  else
    let n_call_points := BitVec.ofNat 32 (G.direct_call_points f_id tgt)
    match num_instances tgt with
    | none => Function.update num_instances tgt (some (cur_instances * n_call_points))
    | some k => Function.update num_instances tgt (some (k + cur_instances * n_call_points))

/-- `compute_instances`, which needs the count of the function if it calls another. -/
def compute_instances (num_instances : α → Option (BitVec 32)) (f_id : α) :
    Option (α → Option (BitVec 32)) :=
  if (G.out_edges f_id).length ≠ 0 then
    (num_instances f_id).map fun cur_instances =>
      (G.out_edges f_id).foldl (G.countEdge memory_mapped_top f_id cur_instances) num_instances
  else some num_instances

/-- The counts after a visit of the functions in the order of allocation. -/
def num_instances (top_id : α) (function_allocation_order : List α) :
    Option (α → Option (BitVec 32)) :=
  function_allocation_order.foldlM (G.compute_instances memory_mapped_top)
    (Function.update (fun _ => none) top_id (some 1))

/-! ## Call graphs in topological order -/

/-- The functions reached from the top one, callers before callees. -/
structure Ordered (top : α) (order : List α) : Prop where
  nodup : order.Nodup
  top_mem : top ∈ order
  forward : Forward (fun a b => b ∈ G.out_edges a) order
  closed : ∀ a ∈ order, ∀ b ∈ G.out_edges a, b ∈ order
  called : ∀ b ∈ order, b ≠ top → ∃ a ∈ order, b ∈ G.out_edges a

/-- Nobody calls the top function. -/
theorem Ordered.not_calls_top {G : CallGraph α} {top : α} {order : List α}
    (h : G.Ordered top order) {a : α} (ha : a ∈ order) : top ∉ G.out_edges a := by
  obtain ⟨first, rest, rfl⟩ := List.exists_cons_of_ne_nil (List.ne_nil_of_mem ha)
  have hfirst : first = top := by
    by_contra hne
    obtain ⟨c, hc, hcall⟩ := h.called first (List.mem_cons_self ..) hne
    exact @Forward.not_into _ _ [] _ _ h.forward _ hc hcall
  subst hfirst
  exact @Forward.not_into _ _ [] _ _ h.forward _ ha

/-! ## What is counted -/

variable (top : α) (order : List α)

/-- The call points of an edge. -/
def callPoints (c t : α) : Nat := if t ∈ G.out_edges c then G.direct_call_points c t else 0

/-- The caller has an edge that overwrites. -/
def resets (c t : α) : Bool := t ∈ G.out_edges c && G.overwrites memory_mapped_top c t

/-- The functions visited after the last one whose edge overwrites the count. -/
def kept (t : α) : List α := order.rtakeWhile fun c => !G.resets memory_mapped_top c t

/-- What the visited functions have counted for a function, given the counts of their own. -/
def counted (k : α → Nat) (visited : List α) (t : α) : Nat :=
  (if t = top ∨ ∃ c ∈ visited, G.resets memory_mapped_top c t = true then 1 else 0) +
    ((G.kept memory_mapped_top visited t).map fun c => k c * G.callPoints c t).sum

/-- The chains of call points to a function that start with the top function or with an edge that
    overwrites, and in which no edge is followed by one that overwrites its count. -/
def chains : α → Nat :=
  propagate (fun c t => if c ∈ G.kept memory_mapped_top order t then G.callPoints c t else 0)
    (fun t => if t = top ∨ ∃ c ∈ order, G.resets memory_mapped_top c t = true then 1 else 0) order

/-- The instances of a callee in one instance of its caller. -/
def units (c t : α) : Nat :=
  if t ∈ G.out_edges c then (if G.get_number_fu c t = 1 then 1 else G.direct_call_points c t) else 0

/-- The hardware instances: one of the top function, and in each instance of a caller those of its
    callees. -/
def hardwareInstances : α → Nat := propagate G.units (fun t => if t = top then 1 else 0) order

/-! ## The counts -/

section Counts

variable {G memory_mapped_top top order}

/-- One edge changes the count of its target alone. -/
theorem countEdge_apply (f_id tgt t : α) (cur : BitVec 32) (num : α → Option (BitVec 32)) :
    G.countEdge memory_mapped_top f_id cur num tgt t =
      if t = tgt then
        if G.overwrites memory_mapped_top f_id t then some 1
        else some ((num t).getD 0 + cur * BitVec.ofNat 32 (G.direct_call_points f_id t))
      else num t := by
  unfold countEdge overwrites
  by_cases ht : t = tgt
  · subst ht
    rw [if_pos rfl]
    cases hp : G.is_a_proxied_function t || (memory_mapped_top && G.hasToBeInterfaced f_id) with
    | true => simp
    | false =>
      by_cases hn : G.get_number_fu f_id t = 1
      · simp [hn]
      · cases hnum : num t <;> simp [hn]
  · rw [if_neg ht]
    split
    · exact Function.update_of_ne ht ..
    · split
      · exact Function.update_of_ne ht ..
      · cases num tgt <;> exact Function.update_of_ne ht ..

/-- The edges of a function change the counts of its callees, each once. -/
theorem foldl_countEdge_apply (f_id t : α) (cur : BitVec 32) (num : α → Option (BitVec 32))
    (l : List α) (hl : l.Nodup) :
    l.foldl (G.countEdge memory_mapped_top f_id cur) num t =
      if t ∈ l then
        if G.overwrites memory_mapped_top f_id t then some 1
        else some ((num t).getD 0 + cur * BitVec.ofNat 32 (G.direct_call_points f_id t))
      else num t := by
  induction l generalizing num with
  | nil => rfl
  | cons tgt l ih =>
    obtain ⟨hnotin, hl⟩ := List.nodup_cons.mp hl
    rw [List.foldl_cons, ih _ hl]
    by_cases ht : t = tgt
    · subst ht
      rw [if_neg hnotin, countEdge_apply, if_pos rfl, if_pos (List.mem_cons_self ..)]
    · have happly := @countEdge_apply α _ G memory_mapped_top f_id tgt t cur num
      rw [if_neg ht] at happly
      rw [happly]
      simp only [List.mem_cons, ht, false_or]

theorem resets_iff {c t : α} : G.resets memory_mapped_top c t = true ↔
    t ∈ G.out_edges c ∧ G.overwrites memory_mapped_top c t = true := by
  simp [resets]

theorem counted_nil (k : α → Nat) (t : α) :
    G.counted memory_mapped_top top k [] t = if t = top then 1 else 0 := by
  simp [counted, kept]

/-- One more visited function resets the count or adds to it. -/
theorem counted_append_singleton (k : α → Nat) (visited : List α) (c t : α) :
    G.counted memory_mapped_top top k (visited ++ [c]) t =
      if G.resets memory_mapped_top c t then 1
      else G.counted memory_mapped_top top k visited t + k c * G.callPoints c t := by
  unfold counted kept
  rw [List.rtakeWhile_concat]
  cases hreset : G.resets memory_mapped_top c t with
  | true => simp [hreset]
  | false =>
    have hex : (∃ d ∈ visited ++ [c], G.resets memory_mapped_top d t = true) ↔
        ∃ d ∈ visited, G.resets memory_mapped_top d t = true := by
      simp [hreset]
    simp only [hex]
    simp [Nat.add_assoc]

/-- What does not call a function does not change what is counted for it. -/
theorem counted_append (k : α → Nat) (visited rest : List α) {t : α}
    (h : ∀ c ∈ rest, t ∉ G.out_edges c) :
    G.counted memory_mapped_top top k (visited ++ rest) t =
      G.counted memory_mapped_top top k visited t := by
  induction rest using List.reverseRecOn with
  | nil => rw [List.append_nil]
  | append_singleton rest c ih =>
    have hc : t ∉ G.out_edges c := h c (by simp)
    rw [← List.append_assoc, counted_append_singleton,
      if_neg fun hreset => hc (resets_iff.mp hreset).1,
      ih fun d hd => h d (List.mem_append_left _ hd), callPoints, if_neg hc, Nat.mul_zero,
      Nat.add_zero]

/-- The count of a function in an order is that of its predecessors. -/
theorem chains_eq (h : G.Ordered top order) (t : α) :
    G.chains memory_mapped_top top order t =
      G.counted memory_mapped_top top (G.chains memory_mapped_top top order) order t := by
  have hforward : Forward (fun c t =>
      (if c ∈ G.kept memory_mapped_top order t then G.callPoints c t else 0) ≠ 0) order := by
    refine ⟨fun a ha => ?_, h.forward.pairwise.imp fun hback => ?_⟩
    · simp [callPoints, h.forward.irrefl a ha]
    · simp [callPoints, hback]
  obtain ⟨front, hfront⟩ : ∃ front, front ++ G.kept memory_mapped_top order t = order :=
    List.rtakeWhile_suffix _ _
  have hdisjoint : ∀ c ∈ front, c ∉ G.kept memory_mapped_top order t := by
    have hnodup := h.nodup
    rw [← hfront] at hnodup
    exact fun c hc hc' => (List.nodup_append.mp hnodup).2.2 c hc c hc' rfl
  have hsum : ∀ k : α → Nat, (order.map fun c =>
      k c * if c ∈ G.kept memory_mapped_top order t then G.callPoints c t else 0).sum =
        ((G.kept memory_mapped_top order t).map fun c => k c * G.callPoints c t).sum := by
    intro k
    have hsplit : ∀ l : List α, (∀ c ∈ l, c ∉ G.kept memory_mapped_top order t) → (l.map fun c =>
        k c * if c ∈ G.kept memory_mapped_top order t then G.callPoints c t else 0).sum = 0 := by
      intro l hl
      refine List.sum_eq_zero fun x hx => ?_
      obtain ⟨c, hc, rfl⟩ := List.mem_map.mp hx
      rw [if_neg (hl c hc), Nat.mul_zero]
    conv_lhs => rw [← hfront]
    rw [List.map_append, List.sum_append, hfront, hsplit front hdisjoint, Nat.zero_add]
    exact congrArg List.sum (List.map_congr_left fun c hc => by rw [if_pos hc])
  unfold chains
  rw [propagate_eq hforward]
  unfold counted
  rw [hsum]

/-- Nothing is counted for a function that has not been met. -/
theorem counted_of_not_called (k : α → Nat) (visited : List α) {t : α}
    (h : ¬ (t = top ∨ ∃ c ∈ visited, t ∈ G.out_edges c)) :
    G.counted memory_mapped_top top k visited t = 0 := by
  obtain ⟨htop, hcall⟩ := not_or.mp h
  have happend := @counted_append α _ G memory_mapped_top top k [] visited t
    fun c hc hmem => hcall ⟨c, hc, hmem⟩
  rw [List.nil_append] at happend
  rw [happend, counted_nil, if_neg htop]

/-- A function whose count is known changes the counts of its callees. -/
theorem compute_instances_apply {num : α → Option (BitVec 32)} {f_id : α} {cur : BitVec 32}
    (h : num f_id = some cur) : ∃ num', G.compute_instances memory_mapped_top num f_id = some num' ∧
      ∀ t, num' t = if t ∈ G.out_edges f_id then
        if G.overwrites memory_mapped_top f_id t then some 1
        else some ((num t).getD 0 + cur * BitVec.ofNat 32 (G.direct_call_points f_id t))
      else num t := by
  unfold compute_instances
  split
  · rw [h]
    exact ⟨_, rfl, fun t => foldl_countEdge_apply f_id t cur num _ (G.nodup f_id)⟩
  · rename_i hempty
    have hnil : G.out_edges f_id = [] := List.length_eq_zero_iff.mp (not_not.mp hempty)
    exact ⟨num, rfl, fun t => by simp [hnil]⟩

/-- The counts after a visit of the first functions. -/
theorem foldlM_compute_instances (h : G.Ordered top order) {visited rest : List α}
    (hsplit : visited ++ rest = order) :
    ∃ num, visited.foldlM (G.compute_instances memory_mapped_top)
        (Function.update (fun _ => none) top (some 1)) = some num ∧
      ∀ t, num t = if t = top ∨ ∃ c ∈ visited, t ∈ G.out_edges c then
        some (BitVec.ofNat 32 (G.counted memory_mapped_top top
          (G.chains memory_mapped_top top order) visited t)) else none := by
  induction visited using List.reverseRecOn generalizing rest with
  | nil =>
    refine ⟨_, rfl, fun t => ?_⟩
    by_cases ht : t = top
    · subst ht
      simp [counted_nil]
    · simp [ht]
  | append_singleton visited c ih =>
    obtain ⟨num, hnum, hcounts⟩ := @ih (c :: rest) (by simpa using hsplit)
    have hc : c ∈ order := by
      rw [← hsplit]
      simp
    have hforward : Forward (fun a b => b ∈ G.out_edges a) (visited ++ c :: rest) := by
      have := h.forward
      rwa [← hsplit, List.append_assoc] at this
    -- The function has been counted by its callers, which all come before it.
    have hcur : num c = some (BitVec.ofNat 32 (G.chains memory_mapped_top top order c)) := by
      have hseen : c = top ∨ ∃ d ∈ visited, c ∈ G.out_edges d := by
        by_cases htop : c = top
        · exact .inl htop
        · obtain ⟨d, hd, hcall⟩ := h.called c hc htop
          rw [← hsplit, List.append_assoc] at hd
          rcases List.mem_append.mp hd with hd | hd
          · exact .inr ⟨d, hd, hcall⟩
          · exact absurd hcall (hforward.not_into hd)
      rw [hcounts, if_pos hseen, chains_eq h]
      congr 2
      rw [← hsplit, List.append_assoc]
      exact (counted_append _ visited ([c] ++ rest) fun d hd => hforward.not_into hd).symm
    obtain ⟨num', hnum', hstep⟩ := @compute_instances_apply α _ G memory_mapped_top _ _ _ hcur
    rw [List.foldlM_append, hnum]
    refine ⟨num', by simpa using hnum', fun t => ?_⟩
    have hseen : (∃ d ∈ visited ++ [c], t ∈ G.out_edges d) ↔
        (∃ d ∈ visited, t ∈ G.out_edges d) ∨ t ∈ G.out_edges c := by
      simp [or_comm]
    rw [hstep, counted_append_singleton]
    simp only [hseen]
    by_cases hmem : t ∈ G.out_edges c
    · have hmet : t = top ∨ (∃ d ∈ visited, t ∈ G.out_edges d) ∨ t ∈ G.out_edges c :=
        .inr (.inr hmem)
      rw [if_pos hmem, if_pos hmet]
      by_cases hover : G.overwrites memory_mapped_top c t = true
      · rw [if_pos hover, if_pos (resets_iff.mpr ⟨hmem, hover⟩)]
        rfl
      · have hbefore : (num t).getD 0 = BitVec.ofNat 32 (G.counted memory_mapped_top top
            (G.chains memory_mapped_top top order) visited t) := by
          rw [hcounts]
          split
          · rfl
          · rename_i hnot
            rw [counted_of_not_called _ _ hnot]
            rfl
        rw [if_neg hover, if_neg fun hreset => hover (resets_iff.mp hreset).2, hbefore, callPoints,
          if_pos hmem, BitVec.ofNat_add, BitVec.ofNat_mul]
    · rw [if_neg hmem, if_neg fun hreset => hmem (resets_iff.mp hreset).1, callPoints, if_neg hmem,
        Nat.mul_zero, Nat.add_zero, hcounts]
      simp only [hmem, or_false]

/-- The count of a function is its number of chains, modulo the size of an `unsigned int`. -/
theorem num_instances_eq (h : G.Ordered top order) :
    ∃ num, G.num_instances memory_mapped_top top order = some num ∧
      ∀ t ∈ order, num t = some (BitVec.ofNat 32 (G.chains memory_mapped_top top order t)) := by
  obtain ⟨num, hnum, hcounts⟩ := @foldlM_compute_instances α _ G memory_mapped_top top order h order [] (List.append_nil order)
  refine ⟨num, hnum, fun t ht => ?_⟩
  have hseen : t = top ∨ ∃ d ∈ order, t ∈ G.out_edges d := by
    by_cases htop : t = top
    · exact .inl htop
    · exact .inr (h.called t ht htop)
  rw [hcounts, if_pos hseen, ← chains_eq h]

/-- The top function is counted once. -/
theorem num_instances_top (h : G.Ordered top order) {num : α → Option (BitVec 32)}
    (hnum : G.num_instances memory_mapped_top top order = some num) : num top = some 1 := by
  obtain ⟨num', hnum', hcounts⟩ := @num_instances_eq α _ G memory_mapped_top top order h
  rw [hnum] at hnum'
  injection hnum' with hnum'
  subst hnum'
  have hnone := @counted_append α _ G memory_mapped_top top
    (G.chains memory_mapped_top top order) [] order top fun c hc => h.not_calls_top hc
  rw [List.nil_append, counted_nil, if_pos rfl, ← chains_eq h] at hnone
  rw [hcounts top h.top_mem, hnone]
  rfl

end Counts

/-! ## Counts of one -/

/-- A function counted once has one hardware instance. -/
def CountsUnique (num_instances : α → Option (BitVec 32)) : Prop :=
  ∀ f ∈ order, num_instances f = some 1 → G.hardwareInstances top order f = 1

/-- A function that a caller limits to one unit is instantiated by a caller visited after the last
    such caller as well, or has one hardware instance. -/
def LimitedUnique : Prop :=
  ∀ f ∈ order, (∃ c ∈ order, G.resets memory_mapped_top c f = true) →
    (∃ c ∈ G.kept memory_mapped_top order f,
      0 < G.hardwareInstances top order c * G.units c f) ∨ G.hardwareInstances top order f = 1

section Unique

variable {G memory_mapped_top top order}

/-- The hardware instances are those in the instances of the callers. -/
theorem hardwareInstances_eq (h : G.Ordered top order) (t : α) :
    G.hardwareInstances top order t = (if t = top then 1 else 0) +
      (order.map fun c => G.hardwareInstances top order c * G.units c t).sum := by
  refine propagate_eq ⟨fun a ha => ?_, h.forward.pairwise.imp fun hback => ?_⟩ t
  · simp [units, h.forward.irrefl a ha]
  · simp [units, hback]

theorem mem_of_mem_kept {c t : α} (h : c ∈ G.kept memory_mapped_top order t) : c ∈ order :=
  (List.rtakeWhile_suffix _ _).subset h

theorem hardwareInstances_pos (h : G.Ordered top order) {c t : α} (hc : c ∈ order)
    (hpos : 0 < G.hardwareInstances top order c * G.units c t) :
    0 < G.hardwareInstances top order t := by
  have hle := @term_le_sum _ (fun c => G.hardwareInstances top order c * G.units c t) _ _ hc
  rw [hardwareInstances_eq h]
  omega

variable (hproxy : ∀ f, G.is_a_proxied_function f = false)
  (hinterface : ∀ f, G.hasToBeInterfaced f = false)

include hproxy hinterface in
theorem units_of_kept {c t : α} (hc : c ∈ G.kept memory_mapped_top order t) :
    G.units c t = G.callPoints c t := by
  have hkept := List.mem_rtakeWhile_imp hc
  unfold units callPoints
  by_cases hmem : t ∈ G.out_edges c
  · have hne : G.get_number_fu c t ≠ 1 := by
      simpa [resets, overwrites, hproxy, hinterface, hmem] using hkept
    rw [if_pos hmem, if_pos hmem, if_neg hne]
  · rw [if_neg hmem, if_neg hmem]

include hproxy hinterface in
/-- Where the limited functions are unique the chains track the hardware instances. -/
theorem tracks_of_limitedUnique (h : G.Ordered top order)
    (hunique : G.LimitedUnique memory_mapped_top top order) :
    ∀ f ∈ order, Tracks (G.chains memory_mapped_top top order f)
      (G.hardwareInstances top order f) := by
  refine h.forward.induction fun f hf hcallers => ?_
  -- The callers that are kept contribute alike.
  have hterm : ∀ c ∈ G.kept memory_mapped_top order f,
      Tracks (G.chains memory_mapped_top top order c * G.callPoints c f)
        (G.hardwareInstances top order c * G.units c f) := by
    intro c hc
    rw [units_of_kept hproxy hinterface hc]
    by_cases hcall : f ∈ G.out_edges c
    · exact (hcallers c (mem_of_mem_kept hc) hcall).mul _
    · rw [callPoints, if_neg hcall]
      exact ⟨Iff.rfl, fun hzero => absurd hzero Nat.zero_ne_one⟩
  rw [chains_eq h, counted]
  by_cases hreset : ∃ c ∈ order, G.resets memory_mapped_top c f = true
  · rw [if_pos (.inr hreset)]
    rcases hunique f hf hreset with ⟨c, hc, hpos⟩ | hone
    · have hadd := (hterm c hc).1.mpr hpos
      have hle := @term_le_sum _ (fun c =>
        G.chains memory_mapped_top top order c * G.callPoints c f) _ _ hc
      have hhw := hardwareInstances_pos h (mem_of_mem_kept hc) hpos
      constructor <;> omega
    · rw [hone]
      constructor <;> omega
  · have hall : G.kept memory_mapped_top order f = order := by
      refine List.rtakeWhile_eq_self_iff.mpr fun c hc => ?_
      simpa using fun hres => hreset ⟨c, hc, hres⟩
    rw [hardwareInstances_eq h]
    refine Tracks.add ?_ ?_
    · simp only [hreset, or_false]
      exact ⟨Iff.rfl, id⟩
    · rw [hall] at hterm ⊢
      exact Tracks.sum hterm

include hproxy hinterface in
/-- Where a function reached by a single chain has one hardware instance, a function reached by a
    chain has one at all. -/
theorem pos_of_chains (h : G.Ordered top order)
    (hone : ∀ f ∈ order, G.chains memory_mapped_top top order f = 1 →
      G.hardwareInstances top order f = 1) :
    ∀ f ∈ order, 0 < G.chains memory_mapped_top top order f →
      0 < G.hardwareInstances top order f := by
  refine h.forward.induction fun f hf hcallers hpos => ?_
  have heq := @chains_eq _ _ G memory_mapped_top top order h f
  rw [counted] at heq
  rcases Nat.eq_zero_or_pos ((G.kept memory_mapped_top order f).map fun c =>
    G.chains memory_mapped_top top order c * G.callPoints c f).sum with hsum | hsum
  · rw [hone f hf (by split at heq <;> omega)]
    exact Nat.one_pos
  · obtain ⟨x, hx, hxpos⟩ := List.exists_mem_ne_zero_of_sum_ne_zero hsum.ne'
    obtain ⟨c, hc, rfl⟩ := List.mem_map.mp hx
    obtain ⟨hchains, hpoints⟩ := mul_ne_zero_iff.mp hxpos
    have hcall : f ∈ G.out_edges c := by
      by_contra hnot
      exact hpoints (if_neg hnot)
    refine hardwareInstances_pos h (mem_of_mem_kept hc) (Nat.mul_pos ?_ ?_)
    · exact hcallers c (mem_of_mem_kept hc) hcall (Nat.pos_of_ne_zero hchains)
    · rw [units_of_kept hproxy hinterface hc]
      exact Nat.pos_of_ne_zero hpoints

include hproxy hinterface in
theorem limitedUnique_of_chains (h : G.Ordered top order)
    (hone : ∀ f ∈ order, G.chains memory_mapped_top top order f = 1 →
      G.hardwareInstances top order f = 1) : G.LimitedUnique memory_mapped_top top order := by
  intro f hf hreset
  by_contra hnot
  obtain ⟨hkept, hnotone⟩ := not_or.mp hnot
  refine hnotone (hone f hf ?_)
  rw [chains_eq h, counted, if_pos (.inr hreset)]
  have hzero : ((G.kept memory_mapped_top order f).map fun c =>
      G.chains memory_mapped_top top order c * G.callPoints c f).sum = 0 := by
    refine List.sum_eq_zero fun x hx => ?_
    obtain ⟨c, hc, rfl⟩ := List.mem_map.mp hx
    by_contra hne
    obtain ⟨hchains, hpoints⟩ := mul_ne_zero_iff.mp hne
    refine hkept ⟨c, hc, Nat.mul_pos ?_ ?_⟩
    · exact pos_of_chains hproxy hinterface h hone c (mem_of_mem_kept hc)
        (Nat.pos_of_ne_zero hchains)
    · rw [units_of_kept hproxy hinterface hc]
      exact Nat.pos_of_ne_zero hpoints
  rw [hzero]

end Unique

/-! ## When a count of one is right -/

/-- A count of one means one hardware instance exactly where a function with a number of chains
    that is one, modulo the size of an `unsigned int`, has one; and as long as no number of chains
    reaches that size, exactly where the limited functions are unique. -/
theorem num_instances_unique_iff {G : CallGraph α} {top : α} {order : List α}
    (memory_mapped_top : Bool) (h : G.Ordered top order)
    (hproxy : ∀ f, G.is_a_proxied_function f = false)
    (hinterface : ∀ f, G.hasToBeInterfaced f = false) :
    ∃ num, G.num_instances memory_mapped_top top order = some num ∧
      (G.CountsUnique top order num ↔ ∀ f ∈ order,
        G.chains memory_mapped_top top order f % 2 ^ 32 = 1 →
          G.hardwareInstances top order f = 1) ∧
      ((∀ f ∈ order, G.chains memory_mapped_top top order f < 2 ^ 32) →
        (G.CountsUnique top order num ↔ G.LimitedUnique memory_mapped_top top order)) := by
  obtain ⟨num, hnum, hcounts⟩ := @num_instances_eq _ _ G memory_mapped_top top order h
  have hone : ∀ n : Nat, (some (BitVec.ofNat 32 n) = some 1) ↔ n % 2 ^ 32 = 1 := by
    intro n
    rw [Option.some_inj, ← BitVec.toNat_inj]
    rfl
  have hunique : G.CountsUnique top order num ↔ ∀ f ∈ order,
      G.chains memory_mapped_top top order f % 2 ^ 32 = 1 →
        G.hardwareInstances top order f = 1 := by
    refine forall₂_congr fun f hf => ?_
    rw [hcounts f hf, hone]
  refine ⟨num, hnum, hunique, fun hlt => ?_⟩
  rw [hunique]
  constructor
  · intro hchains
    refine limitedUnique_of_chains hproxy hinterface h fun f hf hf1 => hchains f hf ?_
    rw [hf1]
    decide
  · intro hlimited f hf hf1
    rw [Nat.mod_eq_of_lt (hlt f hf)] at hf1
    exact (tracks_of_limitedUnique hproxy hinterface h hlimited f hf).2 hf1

/-- A function that is called twice, and has a callee limited to one unit in each instance. -/
def twiceCalled : CallGraph Nat where
  out_edges f := if f = 0 then [1] else if f = 1 then [2] else []
  nodup f := by split_ifs <;> decide
  direct_call_points f _ := if f = 0 then 2 else 1
  get_number_fu f _ := if f = 1 then 1 else 2 ^ 32 - 1
  is_a_proxied_function _ := false
  hasToBeInterfaced _ := false

theorem ordered_twiceCalled : twiceCalled.Ordered 0 [0, 1, 2] where
  nodup := by decide
  top_mem := by decide
  forward := ⟨by decide, by decide⟩
  closed := by decide
  called := by decide

theorem num_instances_unique_iff_twiceCalled :
    ∃ num, twiceCalled.num_instances false 0 [0, 1, 2] = some num ∧
      (twiceCalled.CountsUnique 0 [0, 1, 2] num ↔ ∀ f ∈ [0, 1, 2],
        twiceCalled.chains false 0 [0, 1, 2] f % 2 ^ 32 = 1 →
          twiceCalled.hardwareInstances 0 [0, 1, 2] f = 1) ∧
      ((∀ f ∈ [0, 1, 2], twiceCalled.chains false 0 [0, 1, 2] f < 2 ^ 32) →
        (twiceCalled.CountsUnique 0 [0, 1, 2] num ↔
          twiceCalled.LimitedUnique false 0 [0, 1, 2])) :=
  num_instances_unique_iff false ordered_twiceCalled (fun _ => rfl) fun _ => rfl

/-- The callee is counted once and has two hardware instances. -/
theorem not_countsUnique :
    ¬ ∀ (G : CallGraph Nat) (top : Nat) (order : List Nat), G.Ordered top order →
      (∀ f, G.is_a_proxied_function f = false) → (∀ f, G.hasToBeInterfaced f = false) →
        ∀ num, G.num_instances false top order = some num → G.CountsUnique top order num := by
  intro hall
  have hhw : twiceCalled.hardwareInstances 0 [0, 1, 2] 2 = 2 := by decide
  have hnum : (twiceCalled.num_instances false 0 [0, 1, 2]).bind (fun num => num 2) = some 1 := by
    decide
  cases heq : twiceCalled.num_instances false 0 [0, 1, 2] with
  | none =>
    rw [heq] at hnum
    cases hnum
  | some num =>
    rw [heq] at hnum
    have hone := hall twiceCalled 0 [0, 1, 2] ordered_twiceCalled (fun _ => rfl) (fun _ => rfl)
      num heq 2 (by decide) hnum
    rw [hhw] at hone
    exact absurd hone (by decide)

end CallGraph
end HLS
end Bambu
