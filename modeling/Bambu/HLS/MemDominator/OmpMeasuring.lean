/-
  Bambu.HLS.MemDominator.OmpMeasuring

  The first pass of the OpenMP allocation: what is measured and kept for each fork.

  A core is measured where the assertions hold on the memory object made for it, and its page is
  then the next power of two (`Omp.core_page_size_iff`, `Omp.omp_allocation_info_iff`).
-/

import Bambu.HLS.MemDominator.OmpAllocation

namespace Bambu
namespace HLS

open Memory (Call)

/-! ## Largest values -/

/-- The largest of the values of a list is one of them. -/
theorem foldl_max_spec {α : Type} (f : α → Nat) (l : List α) (a : Nat) :
    a ≤ l.foldl (fun a x => max a (f x)) a ∧ (∀ x ∈ l, f x ≤ l.foldl (fun a x => max a (f x)) a) ∧
      (l.foldl (fun a x => max a (f x)) a = a ∨ ∃ x ∈ l, l.foldl (fun a x => max a (f x)) a = f x) := by
  induction l generalizing a with
  | nil => exact ⟨le_rfl, fun _ h => absurd h List.not_mem_nil, Or.inl rfl⟩
  | cons y l ih =>
    obtain ⟨hle, hall, hmem⟩ := ih (max a (f y))
    rw [List.foldl_cons, List.forall_mem_cons]
    refine ⟨(le_max_left _ _).trans hle, ⟨(le_max_right _ _).trans hle, hall⟩, ?_⟩
    rcases hmem with heq | ⟨x, hx, heq⟩
    · rcases max_choice a (f y) with h | h
      · exact Or.inl (heq.trans h)
      · exact Or.inr ⟨y, List.mem_cons_self, heq.trans h⟩
    · exact Or.inr ⟨x, List.mem_cons_of_mem y hx, heq⟩

/-- The largest of powers of two. -/
theorem foldl_max_isPowerOfTwo {α : Type} {f : α → Nat} {l : List α} (hl : l ≠ [])
    (h : ∀ x ∈ l, (f x).isPowerOfTwo) : (l.foldl (fun a x => max a (f x)) 0).isPowerOfTwo := by
  obtain ⟨-, hall, hmem⟩ := foldl_max_spec f l 0
  rcases hmem with heq | ⟨x, hx, heq⟩
  · obtain ⟨x, hx⟩ := List.exists_mem_of_ne_nil l hl
    have hpos := Nat.pos_of_isPowerOfTwo (h x hx)
    have hle := hall x hx
    omega
  · rw [heq]
    exact h x hx

/-! ## Measuring -/

namespace Omp

variable (ir : IrManager) (p : Parameters)

/-- Where the memory objects start that pages are measured on. -/
def Parameters.start (alignment : Nat) : Nat :=
  align (Memory.create (fun _ => false) p.base_address p.max_bram p.null_pointer_check
    p.initial_internal_address_p p.initial_internal_address).internal_base_address_start alignment

/-- The layout of these memory objects. -/
def measuring (alignment : Nat) : Layout := ⟨fun _ => false, alignment⟩

def Core.page (alignment : Nat) (core : Core) : Nat :=
  ceilPow2 ((measuring alignment).last ir (p.start alignment) (core.calls p) - p.start alignment)

/-- The assertions hold when the page is measured. -/
def Core.Measured (alignment : Nat) (core : Core) : Prop :=
  ((measuring alignment).shared ir (core.calls p)).Nodup ∧ alignment ≤ core.page ir p alignment

/-- The address behind what is measured fits 64 bits. -/
def Core.Fits (alignment : Nat) (core : Core) : Prop :=
  (measuring alignment).last ir (p.start alignment) (core.calls p) < 2 ^ 64

instance (alignment : Nat) (core : Core) : Decidable (core.Measured ir p alignment) :=
  inferInstanceAs (Decidable (_ ∧ _))

instance (alignment : Nat) (core : Core) : Decidable (core.Fits ir p alignment) :=
  inferInstanceAs (Decidable (_ < _))

variable {ir p} {alignment : Nat}

theorem scratch_eq (ir : IrManager) (p : Parameters) (hA : alignment.isPowerOfTwo) :
    ∃ m, p.scratch alignment = .ok m ∧ m.HasLayout ir (measuring alignment) ∧
      (∀ var, var ∉ m.in_vars) ∧
      m.next_base_address = p.start alignment ∧ m.internal_base_address_start = p.start alignment := by
  unfold Parameters.scratch Memory.set_internal_base_address_alignment
  rw [throwAssert_of (Nat.ne_zero_and_sub_one_eq_zero_iff_isPowerOfTwo.mpr hA), ok_bind]
  exact ⟨_, rfl, ⟨rfl, rfl, rfl, Nat.pos_of_isPowerOfTwo hA,
    fun var h => absurd h (AList.notMem_empty var)⟩,
    fun var h => AList.notMem_empty var h, rfl, rfl⟩

/-- A page is measured where the assertions hold. -/
theorem core_page_size_iff (hA : alignment.isPowerOfTwo) {core : Core}
    (hfits : core.Fits ir p alignment) (size : Nat) :
    core_page_size ir p alignment core = .ok size ↔
      core.Measured ir p alignment ∧ size = core.page ir p alignment := by
  obtain ⟨m, hscratch, hm, hempty, hnext, hstart⟩ := scratch_eq ir p hA
  have hfree : m.Free ((measuring alignment).shared ir (core.calls p)) ↔
      ((measuring alignment).shared ir (core.calls p)).Nodup :=
    and_iff_left fun var _ => hempty var
  have hreturns := (Memory.allocate_returns_iff hm (core.calls p)).trans hfree
  unfold core_page_size Core.Measured
  rw [hscratch]
  dsimp only [Except.bind]
  cases hrun : m.allocate ir (core.calls p) with
  | error e =>
    refine iff_of_false (fun h => nomatch h) fun h => ?_
    obtain ⟨r, hr⟩ := hreturns.mpr h.1.1
    rw [hrun] at hr
    cases hr
  | ok r =>
    obtain ⟨hend, -⟩ := Memory.allocate_spec hm hrun (by rw [hnext]; exact hfits)
    have hlast : p.start alignment ≤ (measuring alignment).last ir (p.start alignment) (core.calls p) :=
      Layout.le_last hm.alignment_pos _ _
    have hsize : r.1.get_allocated_internal_memory =
        (measuring alignment).last ir (p.start alignment) (core.calls p) - p.start alignment := by
      unfold Memory.get_allocated_internal_memory
      rw [Memory.allocate_start hrun (fun _ => rfl) hm, hend, hnext, hstart]
      exact wordSub_eq hlast hfits
    have hnodup := hreturns.mp ⟨r, hrun⟩
    dsimp only
    rw [hsize]
    change (throwAssert (alignment ≤ core.page ir p alignment) _).map _ = _ ↔ _
    by_cases hle : alignment ≤ core.page ir p alignment
    · rw [throwAssert_of hle]
      exact ⟨fun h => ⟨⟨hnodup, hle⟩, (Except.ok.inj h).symm⟩, fun h => h.2 ▸ rfl⟩
    · rw [throwAssert_of_not hle]
      exact iff_of_false (fun h => nomatch h) fun h => hle h.1.2

/-- The largest page of the cores. -/
def largestPage (ir : IrManager) (p : Parameters) (alignment page : Nat)
    (cores : List Core) : Nat :=
  cores.foldl (fun page core => max page (core.page ir p alignment)) page

def threads (cores : List Core) : Nat := (cores.map Core.context_count).sum

def Fork.page (ir : IrManager) (p : Parameters) (alignment : Nat) (fork : Fork) : Nat :=
  largestPage ir p alignment 0 fork.outlined_allocation

def Fork.threads (fork : Fork) : Nat := Omp.threads fork.outlined_allocation

def Fork.block (ir : IrManager) (p : Parameters) (alignment : Nat) (fork : Fork) : Nat :=
  ceilPow2 (word (fork.page ir p alignment * fork.threads))

/-- The largest block of the forks. -/
def largestBlock (ir : IrManager) (p : Parameters) (alignment block : Nat)
    (forks : List Fork) : Nat :=
  forks.foldl (fun block fork => max block (fork.block ir p alignment)) block

/-- What is kept for the forks. -/
def infos (ir : IrManager) (p : Parameters) (alignment fork_number : Nat) :
    List Fork → List OMPAllocationInfo
  | [] => []
  | fork :: forks =>
    ⟨ceilLog2 64 (fork.page ir p alignment), ceilLog2 32 fork.threads, fork_number⟩ ::
      infos ir p alignment (fork_number + 1) forks

theorem fork_pages_iff (hA : alignment.isPowerOfTwo) {cores : List Core}
    (hfits : ∀ core ∈ cores, core.Fits ir p alignment) (page n : Nat)
    (hn : n + threads cores < 2 ^ 32)
    (s : Nat × Nat) : fork_pages ir p alignment page n cores = .ok s ↔
      (∀ core ∈ cores, core.Measured ir p alignment) ∧
        s = (largestPage ir p alignment page cores, n + threads cores) := by
  induction cores generalizing page n with
  | nil =>
    refine ⟨fun h => ⟨fun _ hc => absurd hc List.not_mem_nil, (Except.ok.inj h).symm⟩, fun h => ?_⟩
    rw [h.2]
    rfl
  | cons core cores ih =>
    have hthreads : threads (core :: cores) = core.context_count + threads cores := List.sum_cons
    rw [hthreads] at hn
    have hiff := core_page_size_iff hA (hfits core List.mem_cons_self)
    unfold fork_pages
    rw [List.forall_mem_cons, hthreads]
    cases hcore : core_page_size ir p alignment core with
    | error e =>
      refine iff_of_false (fun h => nomatch h) fun h => ?_
      have := (hiff _).mpr ⟨h.1.1, rfl⟩
      rw [hcore] at this
      cases this
    | ok size =>
      obtain ⟨hmeasured, hsize⟩ := (hiff size).mp hcore
      have hrest := ih (fun c hc => hfits c (List.mem_cons_of_mem core hc)) (max page size)
        (n + core.context_count) (by omega)
      dsimp only [Except.bind]
      rw [Nat.mod_eq_of_lt (by omega), hrest, hsize, Nat.add_assoc]
      exact ⟨fun h => ⟨⟨hmeasured, h.1⟩, h.2⟩, fun h => ⟨h.1.2, h.2⟩⟩

/-- The pages of all forks are known where the assertions hold. -/
theorem omp_allocation_info_iff (hA : alignment.isPowerOfTwo) {forks : List Fork}
    (hfits : ∀ fork ∈ forks, ∀ core ∈ fork.outlined_allocation, core.Fits ir p alignment)
    (hthreads : ∀ fork ∈ forks, fork.threads < 2 ^ 32) (fork_number block : Nat)
    (r : List OMPAllocationInfo × Nat) :
    Omp.omp_allocation_info ir p alignment fork_number block forks = .ok r ↔
      (∀ fork ∈ forks, ∀ core ∈ fork.outlined_allocation, core.Measured ir p alignment) ∧
        r = (infos ir p alignment fork_number forks, largestBlock ir p alignment block forks) := by
  induction forks generalizing fork_number block r with
  | nil =>
    refine ⟨fun h => ⟨fun _ hc => absurd hc List.not_mem_nil, (Except.ok.inj h).symm⟩, fun h => ?_⟩
    rw [h.2]
    rfl
  | cons fork forks ih =>
    have hn : 0 + threads fork.outlined_allocation < 2 ^ 32 :=
      (Nat.zero_add _).trans_lt (hthreads fork List.mem_cons_self)
    have hiff := fork_pages_iff hA (hfits fork List.mem_cons_self) 0 0 hn
    unfold Omp.omp_allocation_info
    rw [List.forall_mem_cons]
    cases hfork : fork_pages ir p alignment 0 0 fork.outlined_allocation with
    | error e =>
      refine iff_of_false (fun h => nomatch h) fun h => ?_
      have := (hiff _).mpr ⟨h.1.1, rfl⟩
      rw [hfork] at this
      cases this
    | ok s =>
      obtain ⟨hmeasured, hs⟩ := (hiff s).mp hfork
      rw [Nat.zero_add] at hs
      have hrest := ih (fun f hf => hfits f (List.mem_cons_of_mem fork hf))
        (fun f hf => hthreads f (List.mem_cons_of_mem fork hf)) (fork_number + 1)
        (max block (fork.block ir p alignment))
      rw [hs]
      dsimp only [Except.bind]
      change (Except.map _ (Omp.omp_allocation_info ir p alignment (fork_number + 1)
        (max block (fork.block ir p alignment)) forks)) = _ ↔ _
      cases hinfo : Omp.omp_allocation_info ir p alignment (fork_number + 1)
          (max block (fork.block ir p alignment)) forks with
      | error e =>
        refine iff_of_false (fun h => nomatch h) fun h => ?_
        have := (hrest _).mpr ⟨h.1.2, rfl⟩
        rw [hinfo] at this
        cases this
      | ok r' =>
        obtain ⟨hall, hr'⟩ := (hrest r').mp hinfo
        rw [hr']
        exact ⟨fun h => ⟨⟨hmeasured, hall⟩, (Except.ok.inj h).symm⟩, fun h => h.2 ▸ rfl⟩

end Omp

end HLS
end Bambu
