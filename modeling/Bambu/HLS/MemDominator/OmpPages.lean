/-
  Bambu.HLS.MemDominator.OmpPages

  Where the pages of OpenMP cores are apart (`Omp.pages_apart_iff`).

  A core that has one thread or takes up something leaves the running address behind the start of
  the last page that is reserved for it, so that the next core starts behind its pages
  (`Omp.le_coreNext`); in the same way the next fork starts behind the block of this one
  (`Omp.le_forkNext`).  A core with several threads that takes up nothing leaves an aligned address,
  and the next one starts on the last of its pages.  That a core fits its page where it starts is
  not what was measured.
-/

import Bambu.HLS.MemDominator.OmpMeasuring

namespace Bambu
namespace HLS

open Memory (Call)
open Bambu.Math

namespace Omp

variable {ir : IrManager} {p : Parameters} {alignment : Nat}

/-! ## Allocating again -/

/-- The memory object of a loop when the next page starts. -/
def turnPage (page : Nat) (first : Bool) (next_mem_address : Nat) (m : Memory) : Memory :=
  if first then m else m.align_page page (decide (next_mem_address = m.next_base_address))

variable {L : Layout} {m : Memory} {page next_mem_address : Nat} {first : Bool}

theorem turnPage_in_vars : (turnPage page first next_mem_address m).in_vars = m.in_vars := by
  unfold turnPage
  split <;> rfl

section

variable (page next_mem_address first)

theorem turnPage_layout (hm : m.HasLayout ir L) : (turnPage page first next_mem_address m).HasLayout ir L := by
  unfold turnPage
  split
  · exact hm
  · exact hm.call (c := .reserve_internal_space _) rfl

theorem free_turnPage {vars : List Nat} :
    (turnPage page first next_mem_address m).Free vars ↔ m.Free vars := by
  unfold Memory.Free
  rw [turnPage_in_vars]

end

theorem align_page_next (hm : m.HasLayout ir L) (hpage : 0 < page) (hdvd : L.alignment ∣ page)
    {force : Bool}
    (hfits : nextPage m.next_base_address page force < 2 ^ 64) :
    (m.align_page page force).next_base_address = nextPage m.next_base_address page force := by
  have hnext : ∀ space, m.next_base_address + space = nextPage m.next_base_address page force →
      L.next ir m.next_base_address (.reserve_internal_space space) =
        nextPage m.next_base_address page force := by
    intro space hspace
    dsimp only [Layout.next]
    rw [hspace]
    exact roundUp_of_dvd (hdvd.trans (dvd_nextPage hpage))
  have hcall := hnext _ rfl
  exact (Memory.call_next hm (c := .reserve_internal_space _) rfl (by rw [hcall]; exact hfits)).trans hcall

theorem allocate_core_ok {core : Core} {s : Memory × Page}
    (h : allocate_core ir p page m core = .ok s) :
    ∃ r, m.allocate ir (core.calls p) = .ok r ∧
      s = (r.1.reserve_internal_space (word ((core.context_count - 1) * page)),
        ⟨m.next_base_address, core.context_count, page, r.2⟩) := by
  unfold allocate_core at h
  cases hr : m.allocate ir (core.calls p) with
  | error e =>
    rw [hr] at h
    cases h
  | ok r =>
    rw [hr] at h
    exact ⟨r, rfl, (Except.ok.inj h).symm⟩

theorem allocate_cores_cons {core : Core} {cores : List Core} {r : Memory × Nat × List Page}
    (h : allocate_cores ir p page first next_mem_address m (core :: cores) = .ok r) :
    ∃ s r', allocate_core ir p page (turnPage page first next_mem_address m) core = .ok s ∧
      allocate_cores ir p page false (turnPage page first next_mem_address m).next_base_address s.1 cores =
        .ok r' ∧ r = (r'.1, r'.2.1, s.2 :: r'.2.2) := by
  change ((allocate_core ir p page (turnPage page first next_mem_address m) core).bind fun s =>
    (allocate_cores ir p page false (turnPage page first next_mem_address m).next_base_address s.1 cores).map
      fun r => (r.1, r.2.1, s.2 :: r.2.2)) = .ok r at h
  cases hs : allocate_core ir p page (turnPage page first next_mem_address m) core with
  | error e =>
    rw [hs] at h
    cases h
  | ok s =>
    rw [hs] at h
    dsimp only [Except.bind] at h
    cases hr : allocate_cores ir p page false (turnPage page first next_mem_address m).next_base_address
        s.1 cores with
    | error e =>
      rw [hr] at h
      cases h
    | ok r' =>
      rw [hr] at h
      exact ⟨s, r', rfl, hr, (Except.ok.inj h).symm⟩

theorem allocate_forks_cons {info : OMPAllocationInfo} {fork : Fork}
    {forks : List (OMPAllocationInfo × Fork)} {r : Memory × List (List Page)}
    (h : allocate_forks ir p page first next_mem_address m ((info, fork) :: forks) = .ok r) :
    ∃ s r', allocate_cores ir p (2 ^ (info.proc_addr_bitsize % 64)) true
        (turnPage page first next_mem_address m).next_base_address
        (turnPage page first next_mem_address m) fork.outlined_allocation = .ok s ∧
      allocate_forks ir p page false s.2.1 s.1 forks = .ok r' ∧ r = (r'.1, s.2.2 :: r'.2) := by
  change ((allocate_cores ir p (2 ^ (info.proc_addr_bitsize % 64)) true
    (turnPage page first next_mem_address m).next_base_address
    (turnPage page first next_mem_address m) fork.outlined_allocation).bind fun s =>
      (allocate_forks ir p page false s.2.1 s.1 forks).map fun r => (r.1, s.2.2 :: r.2)) = .ok r at h
  cases hs : allocate_cores ir p (2 ^ (info.proc_addr_bitsize % 64)) true
      (turnPage page first next_mem_address m).next_base_address
      (turnPage page first next_mem_address m) fork.outlined_allocation with
  | error e =>
    rw [hs] at h
    cases h
  | ok s =>
    rw [hs] at h
    dsimp only [Except.bind] at h
    cases hr : allocate_forks ir p page false s.2.1 s.1 forks with
    | error e =>
      rw [hr] at h
      cases h
    | ok r' =>
      rw [hr] at h
      exact ⟨s, r', rfl, hr, (Except.ok.inj h).symm⟩

/-! ## Where the allocation returns -/

/-- The variables of cores that get an address. -/
def sharedOf (ir : IrManager) (p : Parameters) (L : Layout) (cores : List Core) : List Nat :=
  cores.flatMap fun core => L.shared ir (core.calls p)

theorem sharedOf_public {cores : List Core} {var : Nat} (h : var ∈ sharedOf ir p L cores) :
    L.private_memories var = false := by
  obtain ⟨core, -, hcore⟩ := List.mem_flatMap.mp h
  exact Layout.shared_public hcore

theorem allocate_core_keeps (hm : m.HasLayout ir L) {core : Core} {s : Memory × Page}
    (h : allocate_core ir p page m core = .ok s) :
    s.1.HasLayout ir L ∧ Memory.Adds L m (L.shared ir (core.calls p)) s.1 := by
  obtain ⟨r, hr, rfl⟩ := allocate_core_ok h
  obtain ⟨hlayout, hadds⟩ := hm.allocate hr
  exact ⟨hlayout.call (c := .reserve_internal_space _) rfl, hadds⟩

theorem allocate_core_returns_iff (hm : m.HasLayout ir L) (core : Core) :
    (∃ s, allocate_core ir p page m core = .ok s) ↔ m.Free (L.shared ir (core.calls p)) :=
  Memory.map_returns_iff.trans (Memory.allocate_returns_iff hm (core.calls p))

theorem Adds.cons {core : Core} {m₁ m₂ : Memory} {cores : List Core}
    (h : Memory.Adds L m (L.shared ir (core.calls p)) m₁)
    (h' : Memory.Adds L m₁ (sharedOf ir p L cores) m₂) :
    Memory.Adds L m (sharedOf ir p L (core :: cores)) m₂ := by
  intro var hpublic
  rw [h' var hpublic, h var hpublic, or_assoc, ← List.mem_append]
  rfl

theorem allocate_cores_keeps (hm : m.HasLayout ir L) {cores : List Core}
    {r : Memory × Nat × List Page}
    (h : allocate_cores ir p page first next_mem_address m cores = .ok r) :
    r.1.HasLayout ir L ∧ Memory.Adds L m (sharedOf ir p L cores) r.1 := by
  induction cores generalizing first next_mem_address m r with
  | nil =>
    cases h
    exact ⟨hm, fun _ _ => (or_iff_left List.not_mem_nil).symm⟩
  | cons core cores ih =>
    obtain ⟨s, r', hs, hr', rfl⟩ := allocate_cores_cons h
    obtain ⟨hlayout, hadds⟩ := allocate_core_keeps (turnPage_layout _ _ _ hm) hs
    unfold Memory.Adds at hadds
    rw [turnPage_in_vars] at hadds
    obtain ⟨hlayout', hadds'⟩ := ih hlayout hr'
    exact ⟨hlayout', Adds.cons hadds hadds'⟩

theorem allocate_cores_returns_iff (hm : m.HasLayout ir L) (cores : List Core) :
    (∃ r, allocate_cores ir p page first next_mem_address m cores = .ok r) ↔
      m.Free (sharedOf ir p L cores) := by
  induction cores generalizing first next_mem_address m with
  | nil => exact iff_of_true ⟨_, rfl⟩ ⟨List.nodup_nil, fun _ h => absurd h List.not_mem_nil⟩
  | cons core cores ih =>
    have hlayout := turnPage_layout page next_mem_address first hm
    rw [← free_turnPage page next_mem_address first]
    exact Memory.bind_returns_iff Prod.fst (allocate_core_returns_iff hlayout core)
      (fun s hs => (allocate_core_keeps hlayout hs).2)
      (fun s hs => Memory.map_returns_iff.trans (ih (allocate_core_keeps hlayout hs).1))
      fun _ => sharedOf_public

/-- All cores of all forks. -/
def coresOf (forks : List Fork) : List Core := forks.flatMap Fork.outlined_allocation

/-- The forks are allocated where all variables are new. -/
theorem allocate_forks_returns_iff (hm : m.HasLayout ir L)
    (forks : List (OMPAllocationInfo × Fork)) :
    (∃ r, allocate_forks ir p page first next_mem_address m forks = .ok r) ↔
      m.Free (sharedOf ir p L (coresOf (forks.map Prod.snd))) := by
  induction forks generalizing first next_mem_address m with
  | nil => exact iff_of_true ⟨_, rfl⟩ ⟨List.nodup_nil, fun _ h => absurd h List.not_mem_nil⟩
  | cons fork forks ih =>
    have hshared : sharedOf ir p L (coresOf ((fork :: forks).map Prod.snd)) =
        sharedOf ir p L fork.2.outlined_allocation ++ sharedOf ir p L (coresOf (forks.map Prod.snd)) :=
      List.flatMap_append
    have hlayout := turnPage_layout page next_mem_address first hm
    rw [hshared, ← free_turnPage page next_mem_address first]
    exact Memory.bind_returns_iff Prod.fst (allocate_cores_returns_iff hlayout fork.2.outlined_allocation)
      (fun s hs => (allocate_cores_keeps hlayout hs).2)
      (fun s hs => Memory.map_returns_iff.trans (ih (allocate_cores_keeps hlayout hs).1))
      fun _ => sharedOf_public

/-! ## One core -/

/-- The pages of all threads of a core. -/
def Page.window (pg : Page) : Set Nat := Memory.bytes pg.start (pg.context_count * pg.mem_page_size)

/-- What a core takes up is in its first page. -/
def Page.Inside (pg : Page) : Prop :=
  ∀ range ∈ pg.ranges, pg.start ≤ range.1 ∧ range.2 ≤ pg.start + pg.mem_page_size

instance (pg : Page) : Decidable pg.Inside :=
  inferInstanceAs (Decidable (∀ range ∈ pg.ranges, pg.start ≤ range.1 ∧ range.2 ≤ pg.start + pg.mem_page_size))

section Core

variable (ir : IrManager) (p : Parameters) (L : Layout) (page start : Nat) (core : Core)

/-- The running address behind a core and the pages reserved for its other threads. -/
def coreEnd : Nat :=
  roundUp (L.last ir start (core.calls p) + (core.context_count - 1) * page) L.alignment

/-- Where the next core starts. -/
def coreNext : Nat :=
  nextPage (coreEnd ir p L page start core) page (decide (start = coreEnd ir p L page start core))

/-- The core has one thread, or takes some of its page. -/
def Core.Moves : Prop := core.context_count = 1 ∨ start < L.last ir start (core.calls p)

end Core

theorem count_mul (core : Core) (page : Nat) :
    core.context_count * page = (core.context_count - 1) * page + page := by
  have hcount : core.context_count = core.context_count - 1 + 1 :=
    (Nat.sub_add_cancel core.context_count_pos).symm
  rw [← Nat.succ_mul, Nat.succ_eq_add_one, ← hcount]

theorem last_le_coreEnd (ir : IrManager) (p : Parameters) (page : Nat) (h0 : 0 < L.alignment)
    (start : Nat)
    (core : Core) :
    L.last ir start (core.calls p) + (core.context_count - 1) * page ≤ coreEnd ir p L page start core :=
  le_roundUp h0

theorem start_le_coreEnd (ir : IrManager) (p : Parameters) (page : Nat) (h0 : 0 < L.alignment)
    (start : Nat)
    (core : Core) :
    start ≤ coreEnd ir p L page start core := by
  have h1 : start ≤ L.last ir start (core.calls p) := Layout.le_last h0 _ _
  have h2 := last_le_coreEnd ir p page h0 start core
  omega

/-- What is known of a core that was allocated at a start of a page. -/
structure CoreAllocated (ir : IrManager) (p : Parameters) (L : Layout) (page start : Nat)
    (core : Core)
    (s : Memory × Page) : Prop where
  page_eq : s.2 = ⟨start, core.context_count, page, L.ranges ir start (core.calls p)⟩
  next_eq : s.1.next_base_address = coreEnd ir p L page start core

theorem allocate_core_spec (hm : m.HasLayout ir L) {core : Core}
    (hfits : coreEnd ir p L page m.next_base_address core < 2 ^ 64) {s : Memory × Page}
    (h : allocate_core ir p page m core = .ok s) :
    CoreAllocated ir p L page m.next_base_address core s := by
  obtain ⟨r, hr, rfl⟩ := allocate_core_ok h
  have hle := last_le_coreEnd ir p page hm.alignment_pos m.next_base_address core
  obtain ⟨hend, hranges⟩ := Memory.allocate_spec hm hr (by omega)
  have hlayout := (hm.allocate hr).1
  have hword : word ((core.context_count - 1) * page) = (core.context_count - 1) * page :=
    Nat.mod_eq_of_lt (by omega)
  have hnext : L.next ir r.1.next_base_address (.reserve_internal_space ((core.context_count - 1) * page)) =
      coreEnd ir p L page m.next_base_address core := by
    rw [hend]
    rfl
  refine ⟨by rw [hranges], ?_⟩
  rw [hword]
  exact (Memory.call_next hlayout (c := .reserve_internal_space _) rfl (by rw [hnext]; exact hfits)).trans hnext

/-- The objects of a core are in its page where they end within it. -/
theorem inside_iff (h0 : 0 < L.alignment) {start count : Nat} {calls : List Call} :
    (Page.mk start count page (L.ranges ir start calls)).Inside ↔
      ∀ range ∈ L.ranges ir start calls, range.2 ≤ start + page :=
  ⟨fun h range hrange => (h range hrange).2, fun h range hrange =>
    ⟨Layout.le_ranges h0 hrange, h range hrange⟩⟩

/-- The next core starts behind the pages of one that moves. -/
theorem le_coreNext (h0 : 0 < L.alignment) (hpage : 0 < page) {start : Nat} (hs : page ∣ start)
    {core : Core}
    (h : core.Moves ir p L start) :
    start + core.context_count * page ≤ coreNext ir p L page start core := by
  have hle := last_le_coreEnd ir p page h0 start core
  have hlast : start ≤ L.last ir start (core.calls p) := Layout.le_last h0 _ _
  have hcount := count_mul core page
  have hnext : coreEnd ir p L page start core ≤ coreNext ir p L page start core := le_nextPage
  have hdvd : page ∣ coreNext ir p L page start core := dvd_nextPage hpage
  have hbefore : page ∣ start + (core.context_count - 1) * page :=
    Nat.dvd_add hs (Nat.dvd_mul_left page _)
  by_cases hmove : start < L.last ir start (core.calls p)
  · -- two starts of pages are a page apart
    have hlt : start + (core.context_count - 1) * page < coreNext ir p L page start core := by omega
    have := Nat.le_of_dvd (Nat.sub_pos_of_lt hlt) (Nat.dvd_sub hdvd hbefore)
    omega
  · have hone := h.resolve_right hmove
    rw [hone, Nat.one_mul]
    by_cases hsame : start = coreEnd ir p L page start core
    · unfold coreNext
      rw [← hsame, nextPage_of_dvd hs, if_pos (decide_eq_true rfl)]
    · have hlt : start < coreNext ir p L page start core := by omega
      have := Nat.le_of_dvd (Nat.sub_pos_of_lt hlt) (Nat.dvd_sub hdvd hs)
      omega

/-- Behind a core that does not move it starts on the last of the pages. -/
theorem coreNext_of_not_moves (h0 : 0 < L.alignment) (hpage : 0 < page) (hdvd : L.alignment ∣ page)
    {start : Nat}
    (hs : page ∣ start) {core : Core} (h : ¬ core.Moves ir p L start) :
    coreNext ir p L page start core = start + (core.context_count - 1) * page := by
  obtain ⟨hmany, hempty⟩ := not_or.mp h
  have hlast : L.last ir start (core.calls p) = start :=
    Nat.le_antisymm (Nat.not_lt.mp hempty) (Layout.le_last h0 _ _)
  have hbefore : page ∣ start + (core.context_count - 1) * page :=
    Nat.dvd_add hs (Nat.dvd_mul_left page _)
  have hend : coreEnd ir p L page start core = start + (core.context_count - 1) * page := by
    unfold coreEnd
    rw [hlast]
    exact roundUp_of_dvd (hdvd.trans hbefore)
  have hcount := core.context_count_pos
  have hpos : 0 < (core.context_count - 1) * page := Nat.mul_pos (by omega) hpage
  unfold coreNext
  rw [hend, nextPage_of_dvd hbefore, if_neg (by rw [decide_eq_true_iff]; omega)]
  rfl

/-! ## The cores of a fork -/

section Cores

variable (ir : IrManager) (p : Parameters) (L : Layout) (page : Nat)

/-- From a start on, each core fits its page and has its pages below a limit, and those that are
    not the last ones move. -/
def CoresFit (limit : Nat) : Nat → List Core → Prop
  | _, [] => True
  | start, core :: cores =>
    (∀ range ∈ L.ranges ir start (core.calls p), range.2 ≤ start + page) ∧
      start + core.context_count * page ≤ limit ∧ (cores = [] ∨ core.Moves ir p L start) ∧
        CoresFit limit (coreNext ir p L page start core) cores

/-- The start of the last core and the running address behind it. -/
def coresEnd : Nat → List Core → Nat × Nat
  | start, [] => (start, start)
  | start, [core] => (start, coreEnd ir p L page start core)
  | start, core :: core' :: cores => coresEnd (coreNext ir p L page start core) (core' :: cores)

/-- The addresses fit 64 bits. -/
def CoresInSpace : Nat → List Core → Prop
  | _, [] => True
  | start, core :: cores =>
    coreNext ir p L page start core < 2 ^ 64 ∧ CoresInSpace (coreNext ir p L page start core) cores

instance (start : Nat) (core : Core) : Decidable (core.Moves ir p L start) :=
  inferInstanceAs (Decidable (_ ∨ _))

def decidableCoresFit (limit : Nat) : ∀ start cores, Decidable (CoresFit ir p L page limit start cores)
  | _, [] => .isTrue trivial
  | start, core :: cores =>
    have := decidableCoresFit limit (coreNext ir p L page start core) cores
    inferInstanceAs (Decidable (_ ∧ _ ∧ _ ∧ _))

instance {limit start : Nat} {cores : List Core} : Decidable (CoresFit ir p L page limit start cores) :=
  decidableCoresFit ir p L page limit start cores

def decidableCoresInSpace : ∀ start cores, Decidable (CoresInSpace ir p L page start cores)
  | _, [] => .isTrue trivial
  | start, core :: cores =>
    have := decidableCoresInSpace (coreNext ir p L page start core) cores
    inferInstanceAs (Decidable (_ ∧ _))

instance {start : Nat} {cores : List Core} : Decidable (CoresInSpace ir p L page start cores) :=
  decidableCoresInSpace ir p L page start cores

end Cores

/-- The pages hold what their cores take up and do not meet. -/
def PagesApart (pages : List Page) : Prop :=
  (∀ pg ∈ pages, pg.Inside) ∧ pages.Pairwise fun pg pg' => Disjoint pg.window pg'.window

theorem pagesApart_cons {pg : Page} {pages : List Page} :
    PagesApart (pg :: pages) ↔
      pg.Inside ∧ (∀ pg' ∈ pages, Disjoint pg.window pg'.window) ∧ PagesApart pages := by
  unfold PagesApart
  rw [List.forall_mem_cons, List.pairwise_cons]
  tauto

theorem disjoint_windows {pg pg' : Page} (h : pg.start + pg.context_count * pg.mem_page_size ≤ pg'.start) :
    Disjoint pg.window pg'.window :=
  Memory.disjoint_bytes (Or.inl h)

/-- A page with threads contains its start. -/
theorem not_disjoint_windows {pg pg' : Page} (hle : pg.start ≤ pg'.start)
    (hlt : pg'.start < pg.start + pg.context_count * pg.mem_page_size)
    (hpos : 0 < pg'.context_count * pg'.mem_page_size) : ¬ Disjoint pg.window pg'.window := by
  intro h
  exact Set.disjoint_left.mp h (show pg'.start ∈ pg.window from ⟨hle, hlt⟩)
    ⟨le_rfl, Nat.lt_add_of_pos_right hpos⟩

/-- What is known of the cores of a fork. -/
structure CoresAllocated (ir : IrManager) (p : Parameters) (L : Layout) (page start : Nat)
    (cores : List Core)
    (r : Memory × Nat × List Page) : Prop where
  placed : ∀ pg ∈ r.2.2, pg.mem_page_size = page ∧ page ∣ pg.start ∧ start ≤ pg.start
  first : cores ≠ [] → ∃ pg ∈ r.2.2, pg.start = start ∧ 0 < pg.context_count
  behind : cores ≠ [] → (r.2.1, r.1.next_base_address) = coresEnd ir p L page start cores
  /-- The pages are as they should be where the cores fit. -/
  apart_iff : ∀ limit, (PagesApart r.2.2 ∧ ∀ pg ∈ r.2.2, pg.start + pg.context_count * page ≤ limit) ↔
    CoresFit ir p L page limit start cores

theorem allocate_cores_spec (hpage : 0 < page) (hdvd : L.alignment ∣ page) {cores : List Core}
    {start : Nat}
    (hm : m.HasLayout ir L) (hs : page ∣ start)
    (hready : cores ≠ [] → (turnPage page first next_mem_address m).next_base_address = start)
    (hspace : CoresInSpace ir p L page start cores) {r : Memory × Nat × List Page}
    (h : allocate_cores ir p page first next_mem_address m cores = .ok r) :
    CoresAllocated ir p L page start cores r := by
  induction cores generalizing first next_mem_address m start r with
  | nil =>
    cases h
    exact ⟨fun _ h => absurd h List.not_mem_nil, fun h => absurd rfl h, fun h => absurd rfl h,
      fun _ => iff_of_true ⟨⟨fun _ h => absurd h List.not_mem_nil, List.Pairwise.nil⟩,
        fun _ h => absurd h List.not_mem_nil⟩ trivial⟩
  | cons core cores ih =>
    obtain ⟨s, r', hcore, hrest, rfl⟩ := allocate_cores_cons h
    have hstart := hready (List.cons_ne_nil _ _)
    have hlayout := turnPage_layout page next_mem_address first hm
    have hnext_le : coreEnd ir p L page start core ≤ coreNext ir p L page start core := le_nextPage
    have hspec := allocate_core_spec hlayout (by rw [hstart]; exact hnext_le.trans_lt hspace.1) hcore
    have hlayout' := (allocate_core_keeps hlayout hcore).1
    rw [hstart] at hspec hrest
    have hturn : (turnPage page false start s.1).next_base_address = coreNext ir p L page start core := by
      unfold coreNext
      rw [← hspec.next_eq]
      refine align_page_next hlayout' hpage hdvd ?_
      rw [hspec.next_eq]
      exact hspace.1
    have hrest' : CoresAllocated ir p L page (coreNext ir p L page start core) cores r' :=
      ih hlayout' (dvd_nextPage hpage) (fun _ => hturn) hspace.2 hrest
    have hle : start ≤ coreNext ir p L page start core :=
      (start_le_coreEnd ir p page hm.alignment_pos start core).trans hnext_le
    refine ⟨List.forall_mem_cons.mpr ⟨?_, fun pg hpg => ?_⟩, fun _ => ⟨s.2, List.mem_cons_self, ?_⟩,
      fun _ => ?_, fun limit => ?_⟩
    · rw [hspec.page_eq]
      exact ⟨rfl, hs, le_rfl⟩
    · obtain ⟨hsize, hdvd', hge⟩ := hrest'.placed pg hpg
      exact ⟨hsize, hdvd', hle.trans hge⟩
    · rw [hspec.page_eq]
      exact ⟨rfl, core.context_count_pos⟩
    · cases cores with
      | nil =>
        cases hrest
        exact Prod.ext rfl hspec.next_eq
      | cons core' cores => exact hrest'.behind (List.cons_ne_nil _ _)
    · -- the pages of this core and those behind it
      have hcross : (∀ pg ∈ r'.2.2, Disjoint s.2.window pg.window) ↔
        (cores = [] ∨ core.Moves ir p L start) := by
        have hcount := count_mul core page
        rw [hspec.page_eq]
        constructor
        · intro hdisjoint
          by_cases hcores : cores = []
          · exact Or.inl hcores
          · right
            by_contra hmove
            obtain ⟨pg, hpg, hpgstart, hpgcount⟩ := hrest'.first hcores
            rw [coreNext_of_not_moves hm.alignment_pos hpage hdvd hs hmove] at hpgstart
            refine not_disjoint_windows ?_ ?_ ?_ (hdisjoint pg hpg)
            · dsimp only
              omega
            · dsimp only
              omega
            · rw [(hrest'.placed pg hpg).1]
              exact Nat.mul_pos hpgcount hpage
        · rintro (rfl | hmove)
          · cases hrest
            exact fun _ h => absurd h List.not_mem_nil
          · intro pg hpg
            apply disjoint_windows
            exact (le_coreNext hm.alignment_pos hpage hs hmove).trans (hrest'.placed pg hpg).2.2
      unfold CoresFit
      rw [pagesApart_cons, List.forall_mem_cons, ← hrest'.apart_iff limit, hcross, hspec.page_eq,
        inside_iff hm.alignment_pos]
      tauto

/-! ## The forks -/

section Forks

variable (ir : IrManager) (p : Parameters) (L : Layout) (block : Nat)

/-- Where the next fork starts. -/
def forkNext (start : Nat) (fork : Fork) : Nat :=
  let s := coresEnd ir p L (fork.page ir p L.alignment) start fork.outlined_allocation
  nextPage s.2 block (decide (s.1 = s.2))

/-- The cores of each fork fit a block. -/
def ForksFit : Nat → List Fork → Prop
  | _, [] => True
  | start, fork :: forks =>
    CoresFit ir p L (fork.page ir p L.alignment) (start + block) start fork.outlined_allocation ∧
      ForksFit (forkNext ir p L block start fork) forks

/-- The addresses fit 64 bits. -/
def ForksInSpace : Nat → List Fork → Prop
  | _, [] => True
  | start, fork :: forks =>
    CoresInSpace ir p L (fork.page ir p L.alignment) start fork.outlined_allocation ∧
      forkNext ir p L block start fork < 2 ^ 64 ∧ ForksInSpace (forkNext ir p L block start fork) forks

def decidableForksFit : ∀ start forks, Decidable (ForksFit ir p L block start forks)
  | _, [] => .isTrue trivial
  | start, fork :: forks =>
    have := decidableForksFit (forkNext ir p L block start fork) forks
    inferInstanceAs (Decidable (_ ∧ _))

instance {start : Nat} {forks : List Fork} : Decidable (ForksFit ir p L block start forks) :=
  decidableForksFit ir p L block start forks

def decidableForksInSpace : ∀ start forks, Decidable (ForksInSpace ir p L block start forks)
  | _, [] => .isTrue trivial
  | start, fork :: forks =>
    have := decidableForksInSpace (forkNext ir p L block start fork) forks
    inferInstanceAs (Decidable (_ ∧ _ ∧ _))

instance {start : Nat} {forks : List Fork} : Decidable (ForksInSpace ir p L block start forks) :=
  decidableForksInSpace ir p L block start forks

end Forks

theorem coresEnd_spec (ir : IrManager) (p : Parameters) (page : Nat) (h0 : 0 < L.alignment)
    (start : Nat)
    (cores : List Core) :
    start ≤ (coresEnd ir p L page start cores).1 ∧
      (coresEnd ir p L page start cores).1 ≤ (coresEnd ir p L page start cores).2 := by
  induction cores generalizing start with
  | nil => exact ⟨le_rfl, le_rfl⟩
  | cons core cores ih =>
    have hend := start_le_coreEnd ir p page h0 start core
    cases cores with
    | nil => exact ⟨le_rfl, hend⟩
    | cons core' cores =>
      obtain ⟨h1, h2⟩ := ih (coreNext ir p L page start core)
      exact ⟨(hend.trans le_nextPage).trans h1, h2⟩

/-- The next fork starts behind the block. -/
theorem le_forkNext (ir : IrManager) (p : Parameters) (h0 : 0 < L.alignment) {block start : Nat}
    (hblock : 0 < block) (hs : block ∣ start) (fork : Fork) :
    start + block ≤ forkNext ir p L block start fork := by
  obtain ⟨h1, h2⟩ := coresEnd_spec ir p (fork.page ir p L.alignment) h0 start
    fork.outlined_allocation
  unfold forkNext
  dsimp only
  obtain ⟨t, address, hend⟩ : ∃ t address,
      coresEnd ir p L (fork.page ir p L.alignment) start fork.outlined_allocation = (t, address) :=
    ⟨_, _, rfl⟩
  rw [hend] at h1 h2 ⊢
  dsimp only at h1 h2 ⊢
  by_cases hmove : start = address
  · rw [← hmove, nextPage_of_dvd hs, if_pos (decide_eq_true (by omega))]
  · have hle : address ≤ nextPage address block (decide (t = address)) := le_nextPage
    have hdvd : block ∣ nextPage address block (decide (t = address)) := dvd_nextPage hblock
    have hlt : start < nextPage address block (decide (t = address)) := by omega
    have := Nat.le_of_dvd (Nat.sub_pos_of_lt hlt) (Nat.dvd_sub hdvd hs)
    omega

theorem pagesApart_append {pages pages' : List Page} :
    PagesApart (pages ++ pages') ↔
      PagesApart pages ∧ PagesApart pages' ∧ ∀ pg ∈ pages, ∀ pg' ∈ pages', Disjoint pg.window pg'.window := by
  unfold PagesApart
  rw [List.forall_mem_append, List.pairwise_append]
  tauto

/-- The pages of a fork are in one block. -/
def InOneBlock (block : Nat) (pages : List Page) : Prop :=
  ∃ b, block ∣ b ∧ ∀ pg ∈ pages, b ≤ pg.start ∧ pg.start + pg.context_count * pg.mem_page_size ≤ b + block

/-- What is kept for a fork. -/
structure ForkInfo (ir : IrManager) (p : Parameters) (alignment block : Nat)
    (info : OMPAllocationInfo)
    (fork : Fork) : Prop where
  bitsize_lt : info.proc_addr_bitsize < 64
  page_eq : 2 ^ info.proc_addr_bitsize = fork.page ir p alignment
  alignment_dvd : alignment ∣ fork.page ir p alignment
  dvd_block : fork.page ir p alignment ∣ block

/-- The block of pages that has the first one of a fork starts there. -/
theorem inOneBlock_iff {block start : Nat} (hs : block ∣ start) {pages : List Page}
    (hplaced : ∀ pg ∈ pages, start ≤ pg.start) {first : Page} (hfirst : first ∈ pages)
    (hstart : first.start = start) (hpos : 0 < first.context_count * first.mem_page_size) :
    InOneBlock block pages ↔
      ∀ pg ∈ pages, pg.start + pg.context_count * pg.mem_page_size ≤ start + block := by
  constructor
  · rintro ⟨b, hb, hall⟩
    obtain ⟨hle, hlt⟩ := hall first hfirst
    rw [hstart] at hle hlt
    have hsame : b = start := by
      have hdvd : block ∣ start - b := Nat.dvd_sub hs hb
      have hzero := Nat.eq_zero_of_dvd_of_lt hdvd (by omega)
      omega
    intro pg hpg
    exact hsame ▸ (hall pg hpg).2
  · intro hall
    exact ⟨start, hs, fun pg hpg => ⟨hplaced pg hpg, hall pg hpg⟩⟩

theorem allocate_forks_spec {block : Nat} (hblock : 0 < block)
    {forks : List (OMPAllocationInfo × Fork)}
    {start : Nat} (hm : m.HasLayout ir L) (hs : block ∣ start)
    (hready : forks ≠ [] → (turnPage block first next_mem_address m).next_base_address = start)
    (hinfo : ∀ f ∈ forks, ForkInfo ir p L.alignment block f.1 f.2)
    (hspace : ForksInSpace ir p L block start (forks.map Prod.snd)) {r : Memory × List (List Page)}
    (h : allocate_forks ir p block first next_mem_address m forks = .ok r) :
    (∀ pages ∈ r.2, ∀ pg ∈ pages, pg.mem_page_size ∣ pg.start ∧ start ≤ pg.start) ∧
      ((PagesApart r.2.flatten ∧ ∀ pages ∈ r.2, InOneBlock block pages) ↔
        ForksFit ir p L block start (forks.map Prod.snd)) := by
  induction forks generalizing first next_mem_address m start r with
  | nil =>
    cases h
    exact ⟨fun _ h => absurd h List.not_mem_nil, iff_of_true ⟨⟨fun _ h => absurd h List.not_mem_nil,
      List.Pairwise.nil⟩, fun _ h => absurd h List.not_mem_nil⟩ trivial⟩
  | cons f forks ih =>
    obtain ⟨info, fork⟩ := f
    obtain ⟨s, r', hcores, hrest, rfl⟩ := allocate_forks_cons h
    have hstart := hready (List.cons_ne_nil _ _)
    have hlayout := turnPage_layout block next_mem_address first hm
    have hin : ForkInfo ir p L.alignment block info fork := hinfo _ List.mem_cons_self
    have hpage : 0 < fork.page ir p L.alignment := Nat.pos_of_dvd_of_pos hin.dvd_block hblock
    rw [Nat.mod_eq_of_lt hin.bitsize_lt, hin.page_eq] at hcores
    have hready' : ∀ n, (turnPage (fork.page ir p L.alignment) true n
        (turnPage block first next_mem_address m)).next_base_address = start := fun _ => hstart
    have hspec : CoresAllocated ir p L (fork.page ir p L.alignment) start fork.outlined_allocation s :=
      allocate_cores_spec hpage hin.alignment_dvd hlayout (hin.dvd_block.trans hs)
        (fun _ => hready' _) hspace.1 hcores
    have hlayout' := (allocate_cores_keeps hlayout hcores).1
    have hbehind := hspec.behind fork.nonempty
    have hturn : (turnPage block false s.2.1 s.1).next_base_address = forkNext ir p L block start fork := by
      unfold forkNext
      rw [← hbehind]
      refine align_page_next hlayout' hblock (hin.alignment_dvd.trans hin.dvd_block) ?_
      have hlt := hspace.2.1
      unfold forkNext at hlt
      rwa [← hbehind] at hlt
    have hnext : block ∣ forkNext ir p L block start fork := dvd_nextPage hblock
    obtain ⟨hplaced, hiff⟩ := ih hlayout' hnext (fun _ => hturn)
      (fun f hf => hinfo f (List.mem_cons_of_mem _ hf)) hspace.2.2 hrest
    have hle := le_forkNext ir p hm.alignment_pos hblock hs fork
    refine ⟨List.forall_mem_cons.mpr ⟨fun pg hpg => ?_, fun pages hpages pg hpg => ?_⟩, ?_⟩
    · obtain ⟨hsize, hdvd, hge⟩ := hspec.placed pg hpg
      exact ⟨hsize ▸ hdvd, hge⟩
    · obtain ⟨hdvd, hge⟩ := hplaced pages hpages pg hpg
      exact ⟨hdvd, by omega⟩
    · -- the fork's own block, and the pages of the other forks behind it
      obtain ⟨pg₀, hpg₀, hstart₀, hcount₀⟩ := hspec.first fork.nonempty
      have hpos : 0 < pg₀.context_count * pg₀.mem_page_size := by
        rw [(hspec.placed pg₀ hpg₀).1]
        exact Nat.mul_pos hcount₀ hpage
      have hone := inOneBlock_iff hs (fun pg hpg => (hspec.placed pg hpg).2.2) hpg₀ hstart₀ hpos
      have hends : (∀ pg ∈ s.2.2, pg.start + pg.context_count * pg.mem_page_size ≤ start + block) ↔
          ∀ pg ∈ s.2.2, pg.start + pg.context_count * fork.page ir p L.alignment ≤ start + block :=
        forall₂_congr fun pg hpg => by rw [(hspec.placed pg hpg).1]
      have hcross : (∀ pg ∈ s.2.2, pg.start + pg.context_count * pg.mem_page_size ≤ start + block) →
          ∀ pg ∈ s.2.2, ∀ pg' ∈ r'.2.flatten, Disjoint pg.window pg'.window := by
        intro hall pg hpg pg' hpg'
        obtain ⟨pages, hpages, hmem⟩ := List.mem_flatten.mp hpg'
        exact disjoint_windows (((hall pg hpg).trans hle).trans (hplaced pages hpages pg' hmem).2)
      dsimp only [List.flatten_cons]
      change _ ↔ CoresFit ir p L (fork.page ir p L.alignment) (start + block) start fork.outlined_allocation ∧
        ForksFit ir p L block (forkNext ir p L block start fork) (forks.map Prod.snd)
      rw [pagesApart_append, List.forall_mem_cons, ← hspec.apart_iff, ← hiff, ← hends, hone]
      tauto

/-! ## All of it -/

/-- The layout of the memory object that is allocated in. -/
def layout (m : Memory) : Layout := ⟨m.private_memories, m.internal_base_address_alignment⟩

def blockOf (ir : IrManager) (p : Parameters) (m : Memory) (forks : List Fork) : Nat :=
  largestBlock ir p m.internal_base_address_alignment 0 forks

/-- Where the first block starts. -/
def blocksStart (ir : IrManager) (p : Parameters) (m : Memory) (forks : List Fork) : Nat :=
  nextPage m.next_base_address
    (root_alignment m (ceilPow2 (word (blockOf ir p m forks * forks.length)))) false

/-- Nothing is larger than the types can tell. -/
structure InAddressSpace (ir : IrManager) (p : Parameters) (m : Memory) (forks : List Fork) :
    Prop where
  measured : ∀ fork ∈ forks, ∀ core ∈ fork.outlined_allocation,
    core.Fits ir p m.internal_base_address_alignment
  threads : ∀ fork ∈ forks, fork.threads < 2 ^ 32
  fork_pages : ∀ fork ∈ forks, fork.page ir p m.internal_base_address_alignment * fork.threads ≤ 2 ^ 63
  omp_pages : blockOf ir p m forks * forks.length ≤ 2 ^ 63
  start : blocksStart ir p m forks < 2 ^ 64
  blocks : ForksInSpace ir p (layout m) (blockOf ir p m forks) (blocksStart ir p m forks) forks

/-- The condition on forks and memory object. -/
structure PagesFit (ir : IrManager) (p : Parameters) (m : Memory) (forks : List Fork) : Prop where
  measured : ∀ fork ∈ forks, ∀ core ∈ fork.outlined_allocation,
    core.Measured ir p m.internal_base_address_alignment
  /-- No variable has or gets two addresses. -/
  free : m.Free (sharedOf ir p (layout m) (coresOf forks))
  fit : ForksFit ir p (layout m) (blockOf ir p m forks) (blocksStart ir p m forks) forks

/-- What is expected of the pages. -/
structure Correct (ir : IrManager) (m : Memory) (forks : List Fork) (r : Allocation) : Prop where
  /-- Each core of a fork has a page of the size kept for the fork. -/
  pages_of : List.Forall₂ (fun (f : OMPAllocationInfo × Fork) pages =>
    (∀ pg ∈ pages, pg.mem_page_size = 2 ^ f.1.proc_addr_bitsize) ∧
      pages.map Page.context_count = f.2.outlined_allocation.map Core.context_count)
    (r.omp_allocation_info.zip forks) r.pages
  inside : ∀ pages ∈ r.pages, ∀ pg ∈ pages, pg.mem_page_size ∣ pg.start ∧ pg.Inside
  apart : r.pages.flatten.Pairwise fun pg pg' => Disjoint pg.window pg'.window
  root : ∀ pages ∈ r.pages, ∀ pg ∈ pages, ∀ o a, m.mapped o = some a →
    Disjoint (Memory.bytes a (m.extent ir o)) pg.window
  block : ∀ pages ∈ r.pages, InOneBlock r.max_fork_page_size pages

theorem allocate_cores_pages {cores : List Core} {r : Memory × Nat × List Page}
    (h : allocate_cores ir p page first next_mem_address m cores = .ok r) :
    (∀ pg ∈ r.2.2, pg.mem_page_size = page) ∧
      r.2.2.map Page.context_count = cores.map Core.context_count := by
  induction cores generalizing first next_mem_address m r with
  | nil =>
    cases h
    exact ⟨fun _ h => absurd h List.not_mem_nil, rfl⟩
  | cons core cores ih =>
    obtain ⟨s, r', hs, hr', rfl⟩ := allocate_cores_cons h
    obtain ⟨ranges, -, rfl⟩ := allocate_core_ok hs
    obtain ⟨hsize, hcount⟩ := ih hr'
    exact ⟨List.forall_mem_cons.mpr ⟨rfl, hsize⟩, congrArg (core.context_count :: ·) hcount⟩

theorem allocate_forks_pages {forks : List (OMPAllocationInfo × Fork)}
    {r : Memory × List (List Page)}
    (hinfo : ∀ f ∈ forks, f.1.proc_addr_bitsize < 64)
    (h : allocate_forks ir p page first next_mem_address m forks = .ok r) :
    List.Forall₂ (fun (f : OMPAllocationInfo × Fork) pages =>
      (∀ pg ∈ pages, pg.mem_page_size = 2 ^ f.1.proc_addr_bitsize) ∧
        pages.map Page.context_count = f.2.outlined_allocation.map Core.context_count) forks r.2 := by
  induction forks generalizing first next_mem_address m r with
  | nil =>
    cases h
    exact List.Forall₂.nil
  | cons fork forks ih =>
    obtain ⟨s, r', hs, hr', rfl⟩ := allocate_forks_cons h
    rw [Nat.mod_eq_of_lt (hinfo fork List.mem_cons_self)] at hs
    exact List.Forall₂.cons (allocate_cores_pages hs)
      (ih (fun f hf => hinfo f (List.mem_cons_of_mem fork hf)) hr')

theorem infos_spec (ir : IrManager) (p : Parameters) (alignment fork_number : Nat)
    (forks : List Fork) :
    ((infos ir p alignment fork_number forks).zip forks).map Prod.snd = forks ∧
      ∀ f ∈ (infos ir p alignment fork_number forks).zip forks,
        f.2 ∈ forks ∧ f.1.proc_addr_bitsize = ceilLog2 64 (f.2.page ir p alignment) := by
  induction forks generalizing fork_number with
  | nil => exact ⟨rfl, fun _ h => absurd h List.not_mem_nil⟩
  | cons fork forks ih =>
    obtain ⟨hmap, hall⟩ := ih (fork_number + 1)
    refine ⟨congrArg (fork :: ·) hmap, List.forall_mem_cons.mpr ⟨⟨List.mem_cons_self, rfl⟩,
      fun f hf => ?_⟩⟩
    obtain ⟨hmem, heq⟩ := hall f hf
    exact ⟨List.mem_cons_of_mem fork hmem, heq⟩

section Sizes

variable {forks : List Fork}

/-- Measured pages are powers of two from the alignment on. -/
theorem Core.Measured.page_spec (hA : 0 < alignment) {core : Core}
    (hfits : core.Fits ir p alignment)
    (h : core.Measured ir p alignment) :
    (core.page ir p alignment).isPowerOfTwo ∧ core.page ir p alignment ≤ 2 ^ 63 := by
  unfold Core.Fits at hfits
  obtain ⟨hpow, -, hle⟩ := ceilPow2_isPowerOfTwo (x := (measuring alignment).last ir (p.start alignment)
    (core.calls p) - p.start alignment) (by omega) (hA.trans_le h.2)
  exact ⟨hpow, hle⟩

theorem Fork.page_spec (hA : 0 < alignment) {fork : Fork}
    (hfits : ∀ core ∈ fork.outlined_allocation, core.Fits ir p alignment)
    (h : ∀ core ∈ fork.outlined_allocation, core.Measured ir p alignment) :
    (fork.page ir p alignment).isPowerOfTwo ∧ fork.page ir p alignment ≤ 2 ^ 63 ∧
      alignment ≤ fork.page ir p alignment := by
  have hcore := fun core hc => (h core hc).page_spec hA (hfits core hc)
  obtain ⟨-, hall, hmem⟩ := foldl_max_spec (fun core : Core => core.page ir p alignment)
    fork.outlined_allocation 0
  obtain ⟨core, hc⟩ := List.exists_mem_of_ne_nil _ fork.nonempty
  have hle := (h core hc).2.trans (hall core hc)
  refine ⟨foldl_max_isPowerOfTwo fork.nonempty fun core hc => (hcore core hc).1, ?_, hle⟩
  rcases hmem with heq | ⟨core', hc', heq⟩
  · exact (Nat.le_of_eq heq).trans (Nat.zero_le _)
  · exact (Nat.le_of_eq heq).trans (hcore core' hc').2

theorem Fork.threads_pos (fork : Fork) : 0 < fork.threads := by
  obtain ⟨core, cores, hcores⟩ := List.exists_cons_of_ne_nil fork.nonempty
  unfold Fork.threads Omp.threads
  rw [hcores, List.map_cons, List.sum_cons]
  exact Nat.add_pos_left core.context_count_pos _

/-- The pages of a fork fit its block. -/
theorem Fork.block_spec {fork : Fork} (hpos : 0 < fork.page ir p alignment)
    (hle : fork.page ir p alignment * fork.threads ≤ 2 ^ 63) :
    (fork.block ir p alignment).isPowerOfTwo ∧
      fork.page ir p alignment * fork.threads ≤ fork.block ir p alignment := by
  have hword : word (fork.page ir p alignment * fork.threads) = fork.page ir p alignment * fork.threads :=
    Nat.mod_eq_of_lt (hle.trans_lt (by decide))
  obtain ⟨k, -, heq, hge⟩ := ceilPow2_spec (Nat.mul_pos hpos fork.threads_pos) hle
  unfold Fork.block
  rw [hword, heq]
  exact ⟨⟨k, rfl⟩, hge⟩

/-- What is measured makes up for blocks. -/
theorem blocks_spec (hA : m.internal_base_address_alignment.isPowerOfTwo) (hforks : forks ≠ [])
    (hspace : InAddressSpace ir p m forks)
    (hmeasured : ∀ fork ∈ forks, ∀ core ∈ fork.outlined_allocation,
      core.Measured ir p m.internal_base_address_alignment) :
    (blockOf ir p m forks).isPowerOfTwo ∧
      blockOf ir p m forks ∣ root_alignment m (ceilPow2 (word (blockOf ir p m forks * forks.length))) ∧
      ∀ (info : OMPAllocationInfo) (fork : Fork), fork ∈ forks → info.proc_addr_bitsize =
          ceilLog2 64 (fork.page ir p m.internal_base_address_alignment) →
        ForkInfo ir p m.internal_base_address_alignment (blockOf ir p m forks) info fork := by
  have hApos := Nat.pos_of_isPowerOfTwo hA
  have hpage := fun fork hf => Fork.page_spec hApos (hspace.measured fork hf) (hmeasured fork hf)
  have hblock := fun fork hf =>
    Fork.block_spec (Nat.pos_of_isPowerOfTwo (hpage fork hf).1) (hspace.fork_pages fork hf)
  have hpow : (blockOf ir p m forks).isPowerOfTwo :=
    foldl_max_isPowerOfTwo hforks fun fork hf => (hblock fork hf).1
  have hpos := Nat.pos_of_isPowerOfTwo hpow
  refine ⟨hpow, ?_, fun info fork hf hinfo => ?_⟩
  · have hlength : 0 < forks.length := List.length_pos_iff.mpr hforks
    have hword : word (blockOf ir p m forks * forks.length) = blockOf ir p m forks * forks.length :=
      Nat.mod_eq_of_lt (hspace.omp_pages.trans_lt (by decide))
    obtain ⟨k, -, heq, hge⟩ := ceilPow2_spec (Nat.mul_pos hpos hlength) hspace.omp_pages
    rw [hword, heq]
    have hle : blockOf ir p m forks ≤ 2 ^ k := (Nat.le_mul_of_pos_right _ hlength).trans hge
    refine (dvd_of_isPowerOfTwo hpow ⟨k, rfl⟩ hle).trans ?_
    unfold root_alignment
    have hone : 1 ≤ 2 ^ k := Nat.one_le_two_pow
    have hlt : m.get_allocated_internal_memory < 2 ^ 64 := Nat.mod_lt _ (by decide)
    rcases ceilPow2_cases hlt with h0 | ⟨l, -, hl, -⟩
    · rw [h0, max_eq_right (Nat.zero_le _), max_eq_left hone]
    · rw [hl]
      apply dvd_of_isPowerOfTwo ⟨k, rfl⟩
      · exact isPowerOfTwo_max (isPowerOfTwo_max ⟨l, rfl⟩ ⟨k, rfl⟩) Nat.isPowerOfTwo_one
      · exact (le_max_right _ _).trans (le_max_left _ _)
  · obtain ⟨hpow', hle, hA'⟩ := hpage fork hf
    obtain ⟨hlog, heq⟩ := ceilLog2_isPowerOfTwo hpow' hle
    have hmax : fork.block ir p m.internal_base_address_alignment ≤ blockOf ir p m forks :=
      (foldl_max_spec (fun fork : Fork => fork.block ir p m.internal_base_address_alignment)
        forks 0).2.1 fork hf
    have hin := (hblock fork hf).2.trans hmax
    rw [← hinfo] at hlog heq
    exact ⟨hlog, heq, dvd_of_isPowerOfTwo hA hpow' hA',
      dvd_of_isPowerOfTwo hpow' hpow ((Nat.le_mul_of_pos_right _ fork.threads_pos).trans hin)⟩

end Sizes

theorem allocate_omp_ok {forks : List Fork} {r : Allocation}
    (h : allocate_omp ir p m forks = .ok r) :
    ∃ infos r', Omp.omp_allocation_info ir p m.internal_base_address_alignment 0 0 forks = .ok infos ∧
      allocate_forks ir p infos.2 true
        (m.align_page (root_alignment m (ceilPow2 (word (infos.2 * forks.length)))) false).next_base_address
        (m.align_page (root_alignment m (ceilPow2 (word (infos.2 * forks.length)))) false)
        (infos.1.zip forks) = .ok r' ∧
      r.omp_allocation_info = infos.1 ∧ r.max_fork_page_size = infos.2 ∧ r.pages = r'.2 := by
  unfold allocate_omp at h
  cases hinfos : Omp.omp_allocation_info ir p m.internal_base_address_alignment 0 0 forks with
  | error e =>
    rw [hinfos] at h
    cases h
  | ok infos =>
    rw [hinfos] at h
    dsimp only [Except.bind] at h
    cases hr : allocate_forks ir p infos.2 true
        (m.align_page (root_alignment m (ceilPow2 (word (infos.2 * forks.length)))) false).next_base_address
        (m.align_page (root_alignment m (ceilPow2 (word (infos.2 * forks.length)))) false)
        (infos.1.zip forks) with
    | error e =>
      rw [hr] at h
      cases h
    | ok r' =>
      rw [hr] at h
      cases h
      exact ⟨infos, r', rfl, hr, rfl, rfl, rfl⟩

/-- Memory objects that are reached follow their layout. -/
theorem reached_layout {private_memories : Nat → Bool} {m₀ : Memory}
    (hfresh : Memory.Fresh ir private_memories m₀) (hrun : Memory.Run ir (Memory.Fits ir) m₀ m) :
    m.Mapped ir ∧ m.HasLayout ir (layout m) := by
  have hinit : m₀.HasLayout ir (layout m₀) := by
    have hm := hfresh.mapped
    refine ⟨rfl, rfl, ?_, hm.alignment_pos, hm.in_vars_kind⟩
    cases hfresh with
    | create h0 => rfl
    | aligned h0 h =>
      obtain ⟨-, h⟩ := throwAssert_bind_ok h
      rw [← Except.ok.inj h]
      rfl
  obtain ⟨hmapped, hm⟩ := hrun.invariant (Q := fun m => m.Mapped ir ∧ m.HasLayout ir (layout m₀))
    ⟨hfresh.mapped, hinit⟩ fun _ _ _ hm hfits hstep => ⟨hm.1.call hfits hstep, hm.2.call hstep⟩
  exact ⟨hmapped, rfl, rfl, hm.parameter_alignment, hmapped.alignment_pos, hm.in_vars_kind⟩

/-- The second pass, once all pages are measured. -/
theorem second_pass {forks : List Fork} (hm : m.HasLayout ir (layout m))
    (hA : m.internal_base_address_alignment.isPowerOfTwo) (hspace : InAddressSpace ir p m forks)
    (hmeasured : ∀ fork ∈ forks, ∀ core ∈ fork.outlined_allocation,
      core.Measured ir p m.internal_base_address_alignment)
    {m' : Memory} (hm' : m' = m.align_page
      (root_alignment m (ceilPow2 (word (blockOf ir p m forks * forks.length)))) false)
    {r : Memory × List (List Page)}
    (h : allocate_forks ir p (blockOf ir p m forks) true m'.next_base_address m'
      ((infos ir p m.internal_base_address_alignment 0 forks).zip forks) = .ok r) :
    (∀ pages ∈ r.2, ∀ pg ∈ pages, pg.mem_page_size ∣ pg.start ∧ blocksStart ir p m forks ≤ pg.start) ∧
      ((PagesApart r.2.flatten ∧ ∀ pages ∈ r.2, InOneBlock (blockOf ir p m forks) pages) ↔
        ForksFit ir p (layout m) (blockOf ir p m forks) (blocksStart ir p m forks) forks) ∧
      List.Forall₂ (fun (f : OMPAllocationInfo × Fork) pages =>
        (∀ pg ∈ pages, pg.mem_page_size = 2 ^ f.1.proc_addr_bitsize) ∧
          pages.map Page.context_count = f.2.outlined_allocation.map Core.context_count)
        ((infos ir p m.internal_base_address_alignment 0 forks).zip forks) r.2 := by
  obtain ⟨hmap, hmem⟩ := infos_spec ir p m.internal_base_address_alignment 0 forks
  by_cases hforks : forks = []
  · subst hforks
    cases h
    exact ⟨fun _ h => absurd h List.not_mem_nil, iff_of_true ⟨⟨fun _ h => absurd h List.not_mem_nil,
      List.Pairwise.nil⟩, fun _ h => absurd h List.not_mem_nil⟩ trivial, List.Forall₂.nil⟩
  obtain ⟨hpow, hroot, hin⟩ := blocks_spec hA hforks hspace hmeasured
  have hinfo := fun f hf => hin f.1 f.2 (hmem f hf).1 (hmem f hf).2
  -- the first block starts where the memory object is aligned to
  have hrootpos : 0 < root_alignment m (ceilPow2 (word (blockOf ir p m forks * forks.length))) :=
    Nat.one_pos.trans_le (le_max_right _ _)
  have hdvd : (layout m).alignment ∣ root_alignment m (ceilPow2 (word (blockOf ir p m forks * forks.length))) := by
    obtain ⟨fork, hf⟩ := List.exists_mem_of_ne_nil forks hforks
    have hfork := hin ⟨_, 0, 0⟩ fork hf rfl
    exact (hfork.alignment_dvd.trans hfork.dvd_block).trans hroot
  have hstart : m'.next_base_address = blocksStart ir p m forks := by
    rw [hm']
    exact align_page_next hm hrootpos hdvd hspace.start
  have hlayout : m'.HasLayout ir (layout m) := by
    rw [hm']
    exact hm.call (c := .reserve_internal_space _) rfl
  have hready : ∀ n, (turnPage (blockOf ir p m forks) true n m').next_base_address = blocksStart ir p m forks :=
    fun _ => hstart
  have hdvd_start : blockOf ir p m forks ∣ blocksStart ir p m forks :=
    hroot.trans (dvd_nextPage hrootpos)
  obtain ⟨hplaced, hiff⟩ := allocate_forks_spec (Nat.pos_of_isPowerOfTwo hpow) hlayout hdvd_start
    (fun _ => hready _) hinfo (by rw [hmap]; exact hspace.blocks) h
  rw [hmap] at hiff
  exact ⟨hplaced, hiff, allocate_forks_pages (fun f hf => (hinfo f hf).bitsize_lt) h⟩

/-- The third variable is aligned to sixteen bytes; all have eight. -/
def alignedIr : IrManager := ⟨fun _ => false, fun _ => 64,
    fun var => if var = 3 then some 128 else some 8, 64⟩

def nullChecked : Parameters := ⟨0, 32, true, false, 0, ⟨false, false⟩⟩

/-- A lambda with its start register and shared variables. -/
def lambda (f_id : Nat) (vars : List Nat) : FunctionMem :=
  ⟨f_id, vars.map fun var => ⟨var, true, [f_id], fun _ => List.cons_ne_nil _ _, true, true⟩, true,
    false, [], 0⟩

end Omp

end HLS
end Bambu
