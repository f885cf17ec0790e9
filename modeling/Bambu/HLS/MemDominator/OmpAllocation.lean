/-
  Bambu.HLS.MemDominator.OmpAllocation

  The OpenMP part of `mem_dominator_allocation`: pages for the threads of each core, blocks of
  pages for each fork.

  The size of a page is measured on a memory object of its own, which starts at its own base
  address and has no private variables; the same variables are then allocated again at the start
  of a page.  The padding between them may differ there, and the pages of the other threads are
  reserved behind what was allocated, not behind the page.
-/

import Bambu.HLS.MemDominator.FunctionMem
import Bambu.Math.Pages
import Bambu.Utility.CeilPow2

namespace Bambu
namespace HLS

open Memory (Call)
open Bambu.Math

/-! ## The source -/

namespace Omp

/-- An outlined function with the functions that are allocated with it. -/
structure Core where
  order : List FunctionMem
  /-- The number of its threads. -/
  context_count : Nat
  context_count_pos : 0 < context_count

/-- A fork has an entry when an outlined function is found. -/
structure Fork where
  outlined_allocation : List Core
  nonempty : outlined_allocation ≠ []

/-- What memory objects are created with. -/
structure Parameters where
  base_address : Nat
  max_bram : Nat
  null_pointer_check : Bool
  initial_internal_address_p : Bool
  initial_internal_address : Nat
  options : MemOptions

/-- `memory::OMPAllocationInfo` -/
structure OMPAllocationInfo where
  proc_addr_bitsize : Nat
  proc_id_bitsize : Nat
  fork_number : Nat

/-- Where a core was allocated, and what it took up there. -/
structure Page where
  start : Nat
  context_count : Nat
  mem_page_size : Nat
  ranges : List (Nat × Nat)

/-- What the allocation returns and sets in the memory object. -/
structure Allocation where
  Rmem : Memory
  omp_allocation_info : List OMPAllocationInfo
  max_fork_page_size : Nat
  root_space_alignment : Nat
  fork_page_id_start : Nat
  fork_page_id_end : Nat
  /-- By fork and core. -/
  pages : List (List Page)

end Omp

namespace Memory

def align_page (m : Memory) (alignment : Nat) (force_next_page : Bool) : Memory :=
  let misalignment := m.next_base_address % alignment
  let increment :=
    if misalignment ≠ 0 then alignment - misalignment else if force_next_page then alignment else 0
  m.reserve_internal_space increment

end Memory

namespace Omp

variable (ir : IrManager) (p : Parameters)

def Core.calls (core : Core) : List Call := core.order.flatMap (allocate_function_mem p.options)

/-- The memory object that a page is measured on. -/
def Parameters.scratch (alignment : Nat) : Except Error Memory :=
  (Memory.create (fun _ => false) p.base_address p.max_bram p.null_pointer_check
    p.initial_internal_address_p p.initial_internal_address).set_internal_base_address_alignment alignment

def core_page_size (alignment : Nat) (core : Core) : Except Error Nat :=
  (p.scratch alignment).bind fun OMPRmem =>
    (OMPRmem.allocate ir (core.calls p)).bind fun r =>
      let core_page_size := ceilPow2 r.1.get_allocated_internal_memory
      (throwAssert (alignment ≤ core_page_size) ("Alignment larger then OMP core page size: " ++
        toString alignment ++ " > " ++ toString core_page_size)).map fun _ => core_page_size

/-- The largest page of a fork's cores and the number of its threads. -/
def fork_pages (alignment max_core_page_size fork_nthread : Nat) :
    List Core → Except Error (Nat × Nat)
  | [] => .ok (max_core_page_size, fork_nthread)
  | core :: cores =>
    (core_page_size ir p alignment core).bind fun size =>
      fork_pages alignment (max max_core_page_size size)
        ((fork_nthread + core.context_count) % 2 ^ 32) cores

/-- What is kept for each fork, and the largest block of pages. -/
def omp_allocation_info (alignment fork_number max_fork_page_size : Nat) :
    List Fork → Except Error (List OMPAllocationInfo × Nat)
  | [] => .ok ([], max_fork_page_size)
  | fork :: forks =>
    (fork_pages ir p alignment 0 0 fork.outlined_allocation).bind fun s =>
      let info := ⟨ceilLog2 64 s.1, ceilLog2 32 s.2, fork_number⟩
      let fork_page_size := ceilPow2 (word (s.1 * s.2))
      (omp_allocation_info alignment (fork_number + 1) (max max_fork_page_size fork_page_size) forks).map
        fun r => (info :: r.1, r.2)

/-- The first page is where the running address is, the others are reserved. -/
def allocate_core (core_page_size : Nat) (m : Memory) (core : Core) :
    Except Error (Memory × Page) :=
  (m.allocate ir (core.calls p)).map fun r =>
    (r.1.reserve_internal_space (word ((core.context_count - 1) * core_page_size)),
      ⟨m.next_base_address, core.context_count, core_page_size, r.2⟩)

/-- The cores of a fork; the last start of a page is returned as well. -/
def allocate_cores (core_page_size : Nat) :
    Bool → Nat → Memory → List Core → Except Error (Memory × Nat × List Page)
  | _, next_mem_address, m, [] => .ok (m, next_mem_address, [])
  | first_core, next_mem_address, m, core :: cores =>
    let m :=
      if first_core then m
      else m.align_page core_page_size (decide (next_mem_address = m.next_base_address))
    (allocate_core ir p core_page_size m core).bind fun s =>
      (allocate_cores core_page_size false m.next_base_address s.1 cores).map fun r =>
        (r.1, r.2.1, s.2 :: r.2.2)

def allocate_forks (max_fork_page_size : Nat) :
    Bool → Nat → Memory → List (OMPAllocationInfo × Fork) → Except Error (Memory × List (List Page))
  | _, _, m, [] => .ok (m, [])
  | first, next_mem_address, m, (info, fork) :: forks =>
    let core_page_size := 2 ^ (info.proc_addr_bitsize % 64)
    let m :=
      if first then m
      else m.align_page max_fork_page_size (decide (next_mem_address = m.next_base_address))
    (allocate_cores ir p core_page_size true m.next_base_address m fork.outlined_allocation).bind fun s =>
      (allocate_forks max_fork_page_size false s.2.1 s.1 forks).map fun r => (r.1, s.2.2 :: r.2)

/-- The alignment of what is behind the memory of the root functions. -/
def root_alignment (m : Memory) (omp_page_size : Nat) : Nat :=
  max (max (ceilPow2 m.get_allocated_internal_memory) omp_page_size) 1

/-- The allocation of OpenMP functions by `InternalExec`. -/
def allocate_omp (m : Memory) (forks : List Fork) : Except Error Allocation :=
  (omp_allocation_info ir p m.internal_base_address_alignment 0 0 forks).bind fun infos =>
    let max_fork_page_size := infos.2
    let omp_page_size := ceilPow2 (word (max_fork_page_size * forks.length))
    let root_page_size := ceilPow2 m.get_allocated_internal_memory
    let root_space_alignment := root_alignment m omp_page_size
    let m := m.align_page root_space_alignment false
    (allocate_forks ir p max_fork_page_size true m.next_base_address m (infos.1.zip forks)).map fun r =>
      { Rmem := r.1
        omp_allocation_info := infos.1
        max_fork_page_size
        root_space_alignment := if 0 < root_page_size then ceilLog2 64 root_space_alignment else 0
        fork_page_id_start := ceilLog2 64 max_fork_page_size
        fork_page_id_end := ceilLog2 64 omp_page_size
        pages := r.2 }

end Omp

end HLS
end Bambu
