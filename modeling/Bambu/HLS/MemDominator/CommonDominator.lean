/-
  Bambu.HLS.MemDominator.CommonDominator

  Where `mem_dominator_allocation` allocates a variable: in a function that dominates the functions
  that use it.

  The dominators of two uses are listed from the top function down and compared; the comparison
  goes on with what the lists seen so far have in common, as long as the functions are instantiated
  once.  What is in common is always the list of the deepest suitable dominator (`Deepest`), which
  does not depend on the order of the uses.
-/

import Bambu.HLS.MemDominator.Instances
import Bambu.Math.DominatorTree
import Mathlib.Data.List.Dedup

namespace Bambu
namespace HLS

open Bambu.Math

variable {α ν : Type} [DecidableEq α]

/-! ## The source -/

/-- What the choice of a function for a variable reads, apart from the counts of the instances. -/
structure Allocation (α ν : Type) where
  cg : CallGraph α
  getImmediateDominator : α → α
  get_proxy_mapping : α → α
  /-- `get_function_mem` -/
  function_mem : α → List ν
  is_a_state_variable : α → ν → Bool
  written_objects : ν → Bool
  no_local_mem : Bool
  no_private_mem : Bool

namespace Allocation

variable (A : Allocation α ν)

def get_remapped_vertex (current_vertex : α) : α :=
  if A.cg.is_a_proxied_function current_vertex then A.get_proxy_mapping current_vertex
  else current_vertex

/-- The vertex at which `compute_var_usage` records the use of a variable by a function: a state
    variable of a function with several callers is recorded at the dominator. -/
def useVertex (order : List α) (f_id : α) (v : ν) : α :=
  let current_vertex := A.get_remapped_vertex f_id
  let in_degree := (order.filter fun c => current_vertex ∈ A.cg.out_edges c).length
  let current_dom :=
    if in_degree ≠ 1 then A.get_remapped_vertex (A.getImmediateDominator current_vertex)
    else current_vertex
  if A.is_a_state_variable f_id v then current_dom else current_vertex

/-- The uses of a variable, `var_map[top_id][v]`. -/
def uses [DecidableEq ν] (order : List α) (v : ν) : List α :=
  ((order.filter fun f => v ∈ A.function_mem f).map fun f => A.useVertex order f v).dedup

/-- Another top function uses the variable. -/
def multipleTopCallGraph [DecidableEq ν] (var_map : List (α × List ν)) (top_id : α)
    (var_id : ν) : Bool :=
  var_map.any fun p => p.1 ≠ top_id && p.2.contains var_id

/-- `do cur = idom(cur); dominator_list.push_front(cur); while(cur != top_vertex)`, with a bound
    on the number of rounds. -/
def dominatorList (top_vertex : α) : Nat → α → List α → Option (List α)
  | 0, _, _ => none
  | fuel + 1, cur, dominator_list =>
    let cur := A.get_remapped_vertex (A.getImmediateDominator cur)
    if cur ≠ top_vertex then dominatorList top_vertex fuel cur (cur :: dominator_list)
    else some (cur :: dominator_list)

/-- The search for a single instance, with a bound on the number of rounds. -/
def singleInstance (num_instances : α → Option (BitVec 32)) : Nat → α → Option α
  | 0, _ => none
  | fuel + 1, cur =>
    (num_instances cur).bind fun k =>
      if k ≠ 1 then
        singleInstance num_instances fuel (A.get_remapped_vertex (A.getImmediateDominator cur))
      else some cur

/-- The comparison of two lists: the last vertex in common and how many there are. -/
def commonLoop (num_instances : α → Option (BitVec 32)) (is_written : Bool) :
    List α → List α → α → Nat → Option (α × Nat)
  | d1 :: list1, d2 :: list2, cur, n =>
    if d1 = d2 then
      (num_instances d1).bind fun k =>
        if k = 1 ∨ is_written = false then commonLoop num_instances is_written list1 list2 d1 (n + 1)
        else some (cur, n)
    else some (cur, n)
  | _, _, cur, n => some (cur, n)

/-- The loop over the other uses; `last` is how much of the first list is still in common. -/
def usesLoop (num_instances : α → Option (BitVec 32)) (is_written : Bool) (top_vertex : α)
    (fuel : Nat) (dominator_list1 : List α) : List α → Nat → α → Option α
  | [], _, funID => some funID
  | cur :: uses, last, _ =>
    (A.dominatorList top_vertex fuel cur [cur]).bind fun dominator_list2 =>
      -- The loop that builds the list ends with `cur == top_vertex`.
      (commonLoop num_instances is_written (dominator_list1.take last) dominator_list2 top_vertex
        0).bind fun (cur, last) =>
          if cur = top_vertex then some cur
          else usesLoop num_instances is_written top_vertex fuel dominator_list1 uses last cur

/-- The function in which a variable is allocated, from an enumeration of its uses. -/
def allocationFunction [DecidableEq ν] (num_instances : α → Option (BitVec 32))
    (var_map : List (α × List ν))
    (fuel : Nat) (top_id : α) (var_id : ν) (uses : List α) : Option α :=
  if A.no_local_mem = false then
    let is_written := A.written_objects var_id || A.no_private_mem
    match uses with
    | [cur] =>
      if is_written && A.is_a_state_variable cur var_id then A.singleInstance num_instances fuel cur
      else some cur
    | [] => some top_id
    | cur :: uses =>
      if multipleTopCallGraph var_map top_id var_id = false then
        (A.dominatorList top_id fuel cur [cur]).bind fun dominator_list1 =>
          A.usesLoop num_instances is_written top_id fuel dominator_list1 uses
            dominator_list1.length top_id
      else some top_id
  else some top_id

end Allocation

/-! ## Walks from the top function -/

/-- The edges of the call graph. -/
abbrev CallGraph.Calls (G : CallGraph α) (a b : α) : Prop := b ∈ G.out_edges a

section Walks

variable {G : CallGraph α} {top : α} {order : List α}

theorem CallGraph.Ordered.reach (h : G.Ordered top order) :
    ∀ v ∈ order, ∃ w, Walk G.Calls top v w := by
  refine h.forward.induction fun v hv hcallers => ?_
  by_cases htop : v = top
  · subst htop
    exact ⟨_, Walk.refl v⟩
  · obtain ⟨c, hc, hcall⟩ := h.called v hv htop
    obtain ⟨w, hw⟩ := hcallers c hc hcall
    exact ⟨_, hw.snoc hcall⟩

omit [DecidableEq α] in
/-- A walk from the top function stays among its functions. -/
theorem CallGraph.Ordered.mem_of_walk (h : G.Ordered top order) {v : α} {w : List α}
    (hw : Walk G.Calls top v w) : ∀ x ∈ w, x ∈ order := by
  have hchain : ∀ (w : List α) (a : α), a ∈ order → (a :: w).IsChain G.Calls →
      ∀ x ∈ w, x ∈ order := by
    intro w
    induction w with
    | nil =>
      intro a _ _ x hx
      cases hx
    | cons b w ih =>
      intro a ha hch x hx
      obtain ⟨hab, hch⟩ := List.isChain_cons_cons.mp hch
      have hb := h.closed a ha b hab
      rcases List.mem_cons.mp hx with rfl | hx
      · exact hb
      · exact ih b hb hch x hx
  obtain ⟨w', rfl⟩ : ∃ w', w = top :: w' := by
    cases w with
    | nil => cases hw.head
    | cons a w' =>
      have := Option.some.inj hw.head
      exact ⟨w', by rw [this]⟩
  intro x hx
  rcases List.mem_cons.mp hx with rfl | hx
  · exact h.top_mem
  · exact hchain w' top h.top_mem hw.chain x hx

theorem CallGraph.Ordered.mem_of_dominates (h : G.Ordered top order) {d v : α} (hv : v ∈ order)
    (hd : Dominates G.Calls top d v) : d ∈ order := by
  obtain ⟨w, hw⟩ := h.reach v hv
  exact h.mem_of_walk hw d (hd w hw)

end Walks

/-! ## The loops -/

namespace Allocation

section Loops

variable {A : Allocation α ν} {top : α} {order : List α} {num : α → Option (BitVec 32)}
  {is_written : Bool} {fuel : Nat} {v : α} {l : List α}

omit [DecidableEq α] in
theorem get_remapped_vertex_eq (hproxy : ∀ f, A.cg.is_a_proxied_function f = false) (v : α) :
    A.get_remapped_vertex v = v := by
  rw [get_remapped_vertex, hproxy]
  rfl

/-- The list that is built is that of the dominators. -/
theorem dominatorList_eq (hproxy : ∀ f, A.cg.is_a_proxied_function f = false)
    (h : DomPath top A.getImmediateDominator l v) (hne : v ≠ top) (hfuel : l.length ≤ fuel)
    (acc : List α) : A.dominatorList top fuel v acc = some (l.dropLast ++ acc) := by
  induction h generalizing fuel acc with
  | root => exact absurd rfl hne
  | @step l v _ hpath ih =>
    rw [List.length_append, List.length_singleton] at hfuel
    cases fuel with
    | zero => omega
    | succ fuel =>
      obtain ⟨p, hp⟩ := hpath.last
      rw [dominatorList, get_remapped_vertex_eq hproxy, List.dropLast_concat]
      by_cases htop : A.getImmediateDominator v = top
      · rw [if_neg (not_not.mpr htop), htop]
        rw [htop] at hpath
        rw [hpath.unique .root]
        rfl
      · rw [if_pos htop, ih htop (by omega), hp, List.dropLast_concat, List.append_assoc]
        rfl

/-- The list of the top function has it twice. -/
theorem dominatorList_top (hproxy : ∀ f, A.cg.is_a_proxied_function f = false)
    (hroot : A.getImmediateDominator top = top) (hfuel : 0 < fuel) :
    A.dominatorList top fuel top [top] = some [top, top] := by
  cases fuel with
  | zero => exact absurd hfuel (Nat.lt_irrefl 0)
  | succ fuel =>
    rw [dominatorList, get_remapped_vertex_eq hproxy, hroot, if_neg (not_not.mpr rfl)]

/-- The search ends at a dominator. -/
theorem singleInstance_spec (hproxy : ∀ f, A.cg.is_a_proxied_function f = false)
    (h : DomPath top A.getImmediateDominator l v) (hnum : ∀ x ∈ l, ∃ k, num x = some k)
    (htop : num top = some 1) :
    ∃ d ∈ l, ∀ fuel, l.length ≤ fuel → A.singleInstance num fuel v = some d := by
  induction h with
  | root =>
    refine ⟨top, List.mem_singleton_self top, fun fuel hfuel => ?_⟩
    cases fuel with
    | zero => exact absurd hfuel (by simp)
    | succ fuel => simp [singleInstance, htop]
  | @step l v _ hpath ih =>
    obtain ⟨k, hk⟩ := hnum v (by simp)
    obtain ⟨d, hd, hres⟩ := ih fun x hx => hnum x (List.mem_append_left _ hx)
    by_cases hone : k = 1
    · refine ⟨v, by simp, fun fuel hfuel => ?_⟩
      cases fuel with
      | zero => exact absurd hfuel (by simp)
      | succ fuel => rw [singleInstance, hk, Option.bind_some, if_neg (not_not.mpr hone)]
    · refine ⟨d, List.mem_append_left _ hd, fun fuel hfuel => ?_⟩
      rw [List.length_append, List.length_singleton] at hfuel
      cases fuel with
      | zero => omega
      | succ fuel =>
        rw [singleInstance, hk, Option.bind_some, if_pos hone, get_remapped_vertex_eq hproxy]
        exact hres fuel (Nat.le_of_succ_le_succ hfuel)

/-- A written variable needs a function with a single instance. -/
def Suitable (num : α → Option (BitVec 32)) (is_written : Bool) (x : α) : Prop :=
  is_written = true → num x = some 1

/-- The comparison finds what the lists have in common. -/
theorem commonLoop_spec (list1 list2 : List α) (hnum : ∀ x ∈ list1, ∃ k, num x = some k) (cur : α)
    (n : Nat) : ∃ p q q', list1 = p ++ q ∧ list2 = p ++ q' ∧
      commonLoop num is_written list1 list2 cur n = some (p.getLastD cur, n + p.length) ∧
      (∀ x ∈ p, Suitable num is_written x) ∧
      ∀ x r r', q = x :: r → q' = x :: r' → ¬ Suitable num is_written x := by
  induction list1 generalizing list2 cur n with
  | nil => exact ⟨[], [], list2, rfl, rfl, rfl, by simp, by simp⟩
  | cons d1 list1 ih =>
    cases list2 with
    | nil => exact ⟨[], d1 :: list1, [], rfl, rfl, rfl, by simp, by simp⟩
    | cons d2 list2 =>
      rw [commonLoop]
      by_cases heq : d1 = d2
      · subst heq
        obtain ⟨k, hk⟩ := hnum d1 (List.mem_cons_self ..)
        rw [if_pos rfl, hk, Option.bind_some]
        by_cases hone : k = 1 ∨ is_written = false
        · obtain ⟨p, q, q', rfl, rfl, hres, hok, hmax⟩ := ih list2
            (fun x hx => hnum x (List.mem_cons_of_mem _ hx)) d1 (n + 1)
          rw [if_pos hone, hres]
          refine ⟨d1 :: p, q, q', rfl, rfl, ?_, ?_, hmax⟩
          · rw [List.getLastD_cons, List.length_cons]
            congr 2
            omega
          · intro x hx
            rcases List.mem_cons.mp hx with rfl | hx
            · intro hwritten
              rw [hk, hone.resolve_right (by simp [hwritten])]
            · exact hok x hx
        · rw [if_neg hone]
          refine ⟨[], _, _, rfl, rfl, rfl, by simp, fun x r r' hq _ hok => hone ?_⟩
          obtain ⟨rfl, -⟩ := List.cons.inj hq
          cases hw : is_written with
          | false => exact .inr rfl
          | true =>
            have := hok hw
            rw [hk] at this
            exact .inl (Option.some.inj this)
      · rw [if_neg heq]
        refine ⟨[], _, _, rfl, rfl, rfl, by simp, fun x r r' hq hq' _ => heq ?_⟩
        rw [(List.cons.inj hq).1, (List.cons.inj hq').1]

/-- With a use by the top function itself only the top function is in common. -/
theorem commonLoop_top (htop : num top = some 1) (hl : top ∉ l) (cur : α) :
    commonLoop num is_written (top :: l) [top, top] cur 0 = some (top, 1) ∧
      commonLoop num is_written [top, top] (top :: l) cur 0 = some (top, 1) := by
  cases l with
  | nil => simp [commonLoop, htop]
  | cons x l =>
    have hne : x ≠ top := fun h => hl (h ▸ List.mem_cons_self ..)
    simp [commonLoop, htop, hne, hne.symm]

/-! ## The deepest suitable dominator -/

section Deepest

omit [DecidableEq α]

/-- A function is clear when the functions above it, itself included, are suitable. -/
def Clear (A : Allocation α ν) (top : α) (num : α → Option (BitVec 32)) (is_written : Bool)
    (x : α) : Prop := ∀ y, Dominates A.cg.Calls top y x → Suitable num is_written y

/-- A clear function dominates the function where it dominates all of the uses. -/
def Bounds (A : Allocation α ν) (top : α) (num : α → Option (BitVec 32)) (is_written : Bool)
    (S : List α) (d : α) : Prop :=
  ∀ x, A.Clear top num is_written x →
    (Dominates A.cg.Calls top x d ↔ ∀ s ∈ S, Dominates A.cg.Calls top x s)

/-- The deepest clear function that dominates the uses. -/
structure Deepest (A : Allocation α ν) (top : α) (num : α → Option (BitVec 32)) (is_written : Bool)
    (S : List α) (d : α) : Prop where
  clear : A.Clear top num is_written d
  bounds : A.Bounds top num is_written S d

theorem Deepest.dominates {S : List α} {d s : α} (h : A.Deepest top num is_written S d)
    (hs : s ∈ S) : Dominates A.cg.Calls top d s := (h.bounds d h.clear).mp (.refl d) s hs

theorem Deepest.unique {S : List α} {d d' : α} (h : A.Deepest top num is_written S d)
    (h' : A.Deepest top num is_written S d') (hd : ∃ w, Walk A.cg.Calls top d w) : d = d' :=
  Dominates.antisymm hd ((h'.bounds d h.clear).mpr fun _ hs => h.dominates hs)
    ((h.bounds d' h'.clear).mpr fun _ hs => h'.dominates hs)

theorem Deepest.congr {S S' : List α} {d : α} (hS : ∀ s, s ∈ S ↔ s ∈ S')
    (h : A.Deepest top num is_written S d) : A.Deepest top num is_written S' d := by
  refine ⟨h.clear, fun x hx => (h.bounds x hx).trans ?_⟩
  simp only [hS]

theorem clear_top (htop : num top = some 1) : A.Clear top num is_written top := by
  intro y hy _
  rw [hy.eq_entry]
  exact htop

/-- The top function is the deepest one as soon as nothing else dominates some of the uses. -/
theorem deepest_top {S S' : List α} (htop : num top = some 1) (hsub : ∀ s ∈ S, s ∈ S')
    (h : A.Bounds top num is_written S top) : A.Deepest top num is_written S' top := by
  refine ⟨clear_top htop, fun x hx => ⟨fun hxt s _ => ?_, fun hall => ?_⟩⟩
  · rw [hxt.eq_entry]
    exact .of_entry s
  · exact (h x hx).mpr fun s hs => hall s (hsub s hs)

theorem bounds_top (S : List α) (hS : top ∈ S) : A.Bounds top num is_written S top := by
  refine fun x _ => ⟨fun hxt s _ => ?_, fun hall => hall top hS⟩
  rw [hxt.eq_entry]
  exact .of_entry s

end Deepest

variable (h : A.cg.Ordered top order) (hproxy : ∀ f, A.cg.is_a_proxied_function f = false)
  (hidom : ImmediateDominators A.cg.Calls top A.getImmediateDominator)
  (hnum : ∀ x ∈ order, ∃ k, num x = some k) (htop : num top = some 1)

include h hidom in
theorem exists_list : ∀ v ∈ order, ∃ l, DomPath top A.getImmediateDominator l v :=
  exists_domPath hidom h.forward h.reach h.called

include h hidom in
theorem mem_order_of_list (hl : DomPath top A.getImmediateDominator l v) (hv : v ∈ order) {x : α}
    (hx : x ∈ l) : x ∈ order :=
  h.mem_of_dominates hv ((hl.mem_iff hidom (h.reach v hv) x).mp hx)

include h hidom in
theorem length_list_le (hl : DomPath top A.getImmediateDominator l v) (hv : v ∈ order) :
    l.length ≤ order.length :=
  (List.subperm_of_subset (hl.nodup hidom (h.reach v hv)) fun _ hx =>
    mem_order_of_list h hidom hl hv hx).length_le

omit [DecidableEq α] in
theorem list_eq_cons (hl : DomPath top A.getImmediateDominator l v) : ∃ l', l = top :: l' := by
  induction hl with
  | root => exact ⟨[], rfl⟩
  | step _ _ ih =>
    obtain ⟨l', rfl⟩ := ih
    exact ⟨_, rfl⟩

include h hidom in
theorem top_not_mem_tail (hl : DomPath top A.getImmediateDominator (top :: l) v) (hv : v ∈ order) :
    top ∉ l := (List.nodup_cons.mp (hl.nodup hidom (h.reach v hv))).1

include h hidom hnum htop in
/-- One comparison: the last function in common bounds both. -/
theorem commonLoop_bounds {S l' : List α} {u : α} (hl : DomPath top A.getImmediateDominator l u)
    (hu : u ∈ order) (hS : A.Bounds top num is_written S u)
    (hl' : DomPath top A.getImmediateDominator l' v) (hv : v ∈ order) :
    ∃ p q d, l = p ++ q ∧ commonLoop num is_written l l' top 0 = some (d, p.length) ∧
      DomPath top A.getImmediateDominator p d ∧ d ∈ order ∧
      A.Deepest top num is_written (S ++ [v]) d := by
  obtain ⟨p, q, q', hp, hp', hres, hok, hmax⟩ := @commonLoop_spec _ _ num is_written l l'
    (fun x hx => hnum x (mem_order_of_list h hidom hl hu hx)) top 0
  have hne : p ≠ [] := by
    rintro rfl
    obtain ⟨t, ht⟩ := list_eq_cons hl
    obtain ⟨t', ht'⟩ := list_eq_cons hl'
    exact hmax top t t' (hp.symm.trans ht) (hp'.symm.trans ht') fun _ => htop
  obtain ⟨d, hd, hdu, hdv, hclear, hdeep⟩ := DomPath.common hidom (hp ▸ hl) (hp' ▸ hl')
    (h.reach u hu) (h.reach v hv) hok hne hmax
  refine ⟨p, q, d, hp, ?_, hd, h.mem_of_dominates hu hdu, hclear, fun x hx => ?_⟩
  · obtain ⟨p', rfl⟩ := hd.last
    rw [hres, Nat.zero_add, List.getLastD_concat]
  · simp only [List.mem_append, List.mem_singleton]
    constructor
    · rintro hxd s (hs | rfl)
      · exact (hS x hx).mp (hxd.trans hdu) s hs
      · exact hxd.trans hdv
    · intro hall
      exact hdeep x ((hS x hx).mpr fun s hs => hall s (.inl hs)) (hall v (.inr rfl)) hx

include h hproxy hidom hnum htop in
/-- The loop over the uses keeps the list of the deepest function. -/
theorem usesLoop_spec (hfuel : order.length ≤ fuel) (list1 : List α) (uses : List α)
    (huses : ∀ s ∈ uses, s ∈ order) {S : List α} {u funID : α} {last : Nat}
    (hl : DomPath top A.getImmediateDominator (list1.take last) u) (hu : u ∈ order)
    (hS : A.Bounds top num is_written S u)
    (hdone : uses = [] → funID = u ∧ A.Clear top num is_written u) :
    ∃ d ∈ order, A.usesLoop num is_written top fuel list1 uses last funID = some d ∧
      A.Deepest top num is_written (S ++ uses) d := by
  induction uses generalizing S u funID last with
  | nil =>
    obtain ⟨rfl, hclear⟩ := hdone rfl
    refine ⟨funID, hu, rfl, hclear, ?_⟩
    rwa [List.append_nil]
  | cons v uses ih =>
    have hv := huses v (List.mem_cons_self ..)
    have hpos : 0 < order.length := List.length_pos_of_mem hv
    rw [usesLoop]
    by_cases hvtop : v = top
    · subst hvtop
      obtain ⟨l', hl'⟩ := list_eq_cons hl
      rw [hl'] at hl
      rw [dominatorList_top hproxy hidom.root (by omega), Option.bind_some, hl',
        (commonLoop_top htop (top_not_mem_tail h hidom hl hu) v).1, Option.bind_some]
      refine ⟨v, hv, if_pos rfl, deepest_top htop (fun s hs => hs) (bounds_top _ ?_)⟩
      simp
    · obtain ⟨l', hl'⟩ := exists_list h hidom v hv
      obtain ⟨t, ht⟩ := hl'.last
      have hlist : A.dominatorList top fuel v [v] = some l' := by
        rw [dominatorList_eq hproxy hl' hvtop ((length_list_le h hidom hl' hv).trans hfuel), ht,
          List.dropLast_concat]
      obtain ⟨p, q, d, hp, hres, hd, hdorder, hdeep⟩ :=
        commonLoop_bounds h hidom hnum htop hl hu hS hl' hv
      rw [hlist, Option.bind_some, hres, Option.bind_some]
      dsimp only
      by_cases hdtop : d = top
      · subst hdtop
        refine ⟨d, hdorder, if_pos rfl, deepest_top htop (fun s hs => ?_) hdeep.bounds⟩
        rw [List.append_cons]
        exact List.mem_append_left _ hs
      · rw [if_neg hdtop]
        have htake : list1.take p.length = p := by
          have hle : p.length ≤ last := by
            have hlen := congrArg List.length hp
            rw [List.length_take, List.length_append] at hlen
            omega
          have htt := congrArg (List.take p.length) hp
          rwa [List.take_take, Nat.min_eq_left hle, List.take_left'] at htt
          rfl
        obtain ⟨d', hd', hloop, hdeep'⟩ := ih (fun s hs => huses s (List.mem_cons_of_mem _ hs))
          (htake.symm ▸ hd) hdorder hdeep.bounds fun _ => ⟨rfl, hdeep.clear⟩
        refine ⟨d', hd', hloop, ?_⟩
        rwa [List.append_cons]

section Uses

variable [DecidableEq ν] {var_id : ν}

omit [DecidableEq ν] in
include h hproxy hidom in
/-- A use is recorded at a function that dominates the user. -/
theorem useVertex_spec {f : α} (hf : f ∈ order) :
    A.useVertex order f var_id ∈ order ∧
      Dominates A.cg.Calls top (A.useVertex order f var_id) f := by
  have hdom : Dominates A.cg.Calls top (A.getImmediateDominator f) f := by
    by_cases hftop : f = top
    · rw [hftop, hidom.root]
      exact .refl top
    · exact hidom.dominates f (h.reach f hf) hftop
  simp only [useVertex, get_remapped_vertex_eq hproxy]
  split
  · split
    · exact ⟨h.mem_of_dominates hf hdom, hdom⟩
    · exact ⟨hf, .refl f⟩
  · exact ⟨hf, .refl f⟩

theorem mem_uses {u : α} : u ∈ A.uses order var_id ↔
    ∃ f ∈ order, var_id ∈ A.function_mem f ∧ A.useVertex order f var_id = u := by
  simp [uses, List.mem_dedup, and_assoc]

include h hproxy hidom in
theorem mem_order_of_uses {u : α} (hu : u ∈ A.uses order var_id) : u ∈ order := by
  obtain ⟨f, hf, -, rfl⟩ := mem_uses.mp hu
  exact (useVertex_spec h hproxy hidom hf).1

theorem not_multipleTop (vars : List ν) :
    multipleTopCallGraph [(top, vars)] top var_id = false := by
  simp [multipleTopCallGraph]

include h hproxy hidom hnum htop in
/-- Of two uses or more the deepest function is chosen. -/
theorem allocationFunction_of_many (hlocal : A.no_local_mem = false)
    (hfuel : order.length ≤ fuel) (vars : List ν) {uses : List α} (hnodup : uses.Nodup)
    (huses : ∀ s ∈ uses, s ∈ order) (hmany : 2 ≤ uses.length) :
    ∃ d ∈ order, A.allocationFunction num [(top, vars)] fuel top var_id uses = some d ∧
      A.Deepest top num (A.written_objects var_id || A.no_private_mem) uses d := by
  match uses, hmany with
  | cur :: cur' :: uses, _ =>
    have hcur := huses cur (List.mem_cons_self ..)
    have hrest : ∀ s ∈ cur' :: uses, s ∈ order := fun s hs => huses s (List.mem_cons_of_mem _ hs)
    have hpos : 0 < order.length := List.length_pos_of_mem hcur
    unfold allocationFunction
    rw [if_pos hlocal]
    dsimp only
    rw [if_pos (not_multipleTop vars)]
    by_cases hcurtop : cur = top
    · -- The second use is not the top function too: nothing else is in common.
      subst hcurtop
      have hcur' : cur' ∈ order := hrest cur' (List.mem_cons_self ..)
      have hne : cur' ≠ cur := fun heq =>
        (List.nodup_cons.mp hnodup).1 (heq ▸ List.mem_cons_self ..)
      obtain ⟨l', hl'⟩ := exists_list h hidom cur' hcur'
      obtain ⟨t, ht⟩ := hl'.last
      have hlist : A.dominatorList cur fuel cur' [cur'] = some l' := by
        rw [dominatorList_eq hproxy hl' hne ((length_list_le h hidom hl' hcur').trans hfuel), ht,
          List.dropLast_concat]
      obtain ⟨t', rfl⟩ := list_eq_cons hl'
      rw [dominatorList_top hproxy hidom.root (by omega), Option.bind_some, usesLoop, hlist,
        Option.bind_some, List.take_length,
        (commonLoop_top htop (top_not_mem_tail h hidom hl' hcur') cur).2, Option.bind_some]
      refine ⟨cur, hcur, if_pos rfl, deepest_top htop (fun s hs => hs) (bounds_top _ ?_)⟩
      exact List.mem_cons_self ..
    · obtain ⟨l, hl⟩ := exists_list h hidom cur hcur
      obtain ⟨t, ht⟩ := hl.last
      have hlist : A.dominatorList top fuel cur [cur] = some l := by
        rw [dominatorList_eq hproxy hl hcurtop ((length_list_le h hidom hl hcur).trans hfuel), ht,
          List.dropLast_concat]
      rw [hlist, Option.bind_some]
      refine @usesLoop_spec _ _ _ A top order num _ fuel h hproxy hidom hnum htop hfuel l _ hrest
        [cur] cur top l.length (List.take_length.symm ▸ hl) hcur (fun x _ => ?_) fun hnil => ?_
      · simp
      · cases hnil

end Uses

end Loops

/-! ## The owner of a variable -/

/-- The owner of a variable dominates its users, has one instance as all above it if the variable
    is written, and is the deepest function of this kind. -/
def Owns [DecidableEq ν] (A : Allocation α ν) (top : α) (order : List α)
    (num : α → Option (BitVec 32)) (var_id : ν) (f : α) : Prop :=
  (∀ g ∈ order, var_id ∈ A.function_mem g → Dominates A.cg.Calls top f g) ∧
    A.Clear top num (A.written_objects var_id || A.no_private_mem) f ∧
    ∀ d, (∀ g ∈ order, var_id ∈ A.function_mem g → Dominates A.cg.Calls top d g) →
      A.Clear top num (A.written_objects var_id || A.no_private_mem) d →
        Dominates A.cg.Calls top d f

/-- A function that is called twice, below it two functions with the same two callees, one of which
    has a callee of its own. -/
def sharedCallees : CallGraph Nat where
  out_edges
    | 0 => [1]
    | 1 => [2, 3]
    | 2 => [4, 6]
    | 3 => [4, 6]
    | 4 => [5]
    | _ => []
  nodup f := by split <;> decide
  direct_call_points f _ := if f = 0 then 2 else 1
  get_number_fu _ _ := 2 ^ 32 - 1
  is_a_proxied_function _ := false
  hasToBeInterfaced _ := false

theorem ordered_sharedCallees : sharedCallees.Ordered 0 [0, 1, 2, 3, 4, 6, 5] where
  nodup := by decide
  top_mem := by decide
  forward := ⟨by decide, by decide⟩
  closed := by decide
  called := by decide

/-- A variable of some functions. -/
def sharedVariable (users : List Nat) (is_a_state_variable written no_local_mem : Bool) :
    Allocation Nat Nat where
  cg := sharedCallees
  getImmediateDominator
    | 2 => 1
    | 3 => 1
    | 4 => 1
    | 6 => 1
    | 5 => 4
    | _ => 0
  get_proxy_mapping := id
  function_mem f := if f ∈ users then [7] else []
  is_a_state_variable f _ := is_a_state_variable && f ∈ users
  written_objects _ := written
  no_local_mem := no_local_mem
  no_private_mem := false

theorem calls_sharedCallees {a b : Nat} : sharedCallees.Calls a b ↔
    (a, b) ∈ [(0, 1), (1, 2), (1, 3), (2, 4), (2, 6), (3, 4), (3, 6), (4, 5)] := by
  match a with
  | 0 => simp [CallGraph.Calls, sharedCallees]
  | 1 => simp [CallGraph.Calls, sharedCallees]
  | 2 => simp [CallGraph.Calls, sharedCallees]
  | 3 => simp [CallGraph.Calls, sharedCallees]
  | 4 => simp [CallGraph.Calls, sharedCallees]
  | n + 5 => simp [CallGraph.Calls, sharedCallees]

section Shared

variable {users : List Nat} {state written no_local : Bool}

/-- A function that calls alone dominates its callee. -/
theorem dominates_of_caller {a b : Nat} (hb : b ≠ 0) (h : ∀ c, sharedCallees.Calls c b → c = a) :
    Dominates sharedCallees.Calls 0 a b :=
  .of_callers hb fun c hc => h c hc ▸ .refl c

/-- Below the function that is called twice, what dominates a shared callee dominates it too. -/
theorem dominates_one_of_shared {d v : Nat} (hne : d ≠ v) (h2 : sharedCallees.Calls 2 v)
    (h3 : sharedCallees.Calls 3 v) (hd : Dominates sharedCallees.Calls 0 d v) :
    Dominates sharedCallees.Calls 0 d 1 := by
  have hd2 := hd.of_edge hne h2
  have hd3 := hd.of_edge hne h3
  refine hd2.of_edge ?_ (show sharedCallees.Calls 1 2 by decide)
  rintro rfl
  -- There is a way around one of the two callers.
  have hwalk : Walk sharedCallees.Calls 0 3 [0, 1, 3] := ⟨by decide, rfl, rfl⟩
  exact absurd (hd3 _ hwalk) (by decide)

theorem dominates_shared {v : Nat} (hv : v ≠ 0)
    (h : ∀ c, sharedCallees.Calls c v → c = 2 ∨ c = 3) : Dominates sharedCallees.Calls 0 1 v := by
  refine .of_callers hv fun c hc => ?_
  rcases h c hc with rfl | rfl
  · exact dominates_of_caller (by decide) fun a ha => by simpa [calls_sharedCallees] using ha
  · exact dominates_of_caller (by decide) fun a ha => by simpa [calls_sharedCallees] using ha

theorem immediateDominators_sharedVariable :
    ImmediateDominators sharedCallees.Calls 0
      (sharedVariable users state written no_local).getImmediateDominator := by
  have hreach : ∀ v, (∃ w, Walk sharedCallees.Calls 0 v w) → v ∈ [0, 1, 2, 3, 4, 6, 5] := by
    rintro v ⟨w, hw⟩
    exact ordered_sharedCallees.mem_of_walk hw v (List.mem_of_getLast? hw.last)
  refine ⟨rfl, fun v hv hne => ?_, fun v hv hne => ?_, fun v d hv hne hdv hd => ?_⟩ <;>
    have hmem := hreach v hv <;> simp only [List.mem_cons, List.not_mem_nil, or_false] at hmem <;>
    rcases hmem with rfl | rfl | rfl | rfl | rfl | rfl | rfl
  · exact absurd rfl hne
  · exact .of_entry 1
  · exact @dominates_of_caller 1 2 hne fun a ha => by simpa [calls_sharedCallees] using ha
  · exact @dominates_of_caller 1 3 hne fun a ha => by simpa [calls_sharedCallees] using ha
  · exact dominates_shared hne fun a ha => by simpa [calls_sharedCallees] using ha
  · exact dominates_shared hne fun a ha => by simpa [calls_sharedCallees] using ha
  · exact @dominates_of_caller 4 5 hne fun a ha => by simpa [calls_sharedCallees] using ha
  · exact absurd rfl hne
  · exact Nat.zero_ne_one
  · exact (by decide : (1 : Nat) ≠ 2)
  · exact (by decide : (1 : Nat) ≠ 3)
  · exact (by decide : (1 : Nat) ≠ 4)
  · exact (by decide : (1 : Nat) ≠ 6)
  · exact (by decide : (4 : Nat) ≠ 5)
  · exact absurd rfl hne
  · exact hd.of_edge hdv (show sharedCallees.Calls 0 1 by decide)
  · exact hd.of_edge hdv (show sharedCallees.Calls 1 2 by decide)
  · exact hd.of_edge hdv (show sharedCallees.Calls 1 3 by decide)
  · exact dominates_one_of_shared hdv (by decide) (by decide) hd
  · exact dominates_one_of_shared hdv (by decide) (by decide) hd
  · exact hd.of_edge hdv (show sharedCallees.Calls 4 5 by decide)

/-- A case in which the function that is chosen is not the owner. -/
def Misplaced (A : Allocation Nat Nat) : Prop :=
  A.cg.Ordered 0 [0, 1, 2, 3, 4, 6, 5] ∧ (∀ f, A.cg.is_a_proxied_function f = false) ∧
    ImmediateDominators A.cg.Calls 0 A.getImmediateDominator ∧
    (∃ f ∈ [0, 1, 2, 3, 4, 6, 5], ∃ g ∈ [0, 1, 2, 3, 4, 6, 5], f ≠ g ∧ 7 ∈ A.function_mem f ∧
      7 ∈ A.function_mem g) ∧
    ∃ num f, A.cg.num_instances false 0 [0, 1, 2, 3, 4, 6, 5] = some num ∧
      A.allocationFunction num [(0, [7])] 7 0 7 (A.uses [0, 1, 2, 3, 4, 6, 5] 7) = some f ∧
        ¬ A.Owns 0 [0, 1, 2, 3, 4, 6, 5] num 7 f

/-- What is allocated where, as a computation. -/
def allocated (A : Allocation Nat Nat) : Option (Nat × Option (BitVec 32)) :=
  (A.cg.num_instances false 0 [0, 1, 2, 3, 4, 6, 5]).bind fun num =>
    (A.allocationFunction num [(0, [7])] 7 0 7 (A.uses [0, 1, 2, 3, 4, 6, 5] 7)).map fun f =>
      (f, num f)

theorem misplaced_of_allocated {f : Nat} {k : Option (BitVec 32)}
    (hused : ∃ f ∈ [0, 1, 2, 3, 4, 6, 5], ∃ g ∈ [0, 1, 2, 3, 4, 6, 5],
      f ≠ g ∧ 7 ∈ (sharedVariable users state written no_local).function_mem f ∧
        7 ∈ (sharedVariable users state written no_local).function_mem g)
    (h : allocated (sharedVariable users state written no_local) = some (f, k))
    (hnot : ∀ num, num f = k → ¬ (sharedVariable users state written no_local).Owns 0
      [0, 1, 2, 3, 4, 6, 5] num 7 f) :
    Misplaced (sharedVariable users state written no_local) := by
  refine ⟨ordered_sharedCallees, fun _ => rfl, immediateDominators_sharedVariable, hused, ?_⟩
  obtain ⟨num, hnum, h⟩ := Option.bind_eq_some_iff.mp h
  obtain ⟨f', hf', heq⟩ := Option.map_eq_some_iff.mp h
  obtain ⟨rfl, hk⟩ := Prod.mk.inj heq
  exact ⟨num, f', hnum, hf', hnot num hk⟩

end Shared

end Allocation
end HLS
end Bambu
