/-
  Bambu.HLS.MemorySize

  The sizes that are computed from the memory map: differences of the running address and the
  start of the internal addresses.

  While the start stays where it is, every call moves the running address by what it allocates at
  least, and the differences are exact (`Memory.memory_size_exact`).  A private variable moves the
  start to a multiple of its alignment where null pointers are checked, and then the start can
  pass the running address.
-/

import Bambu.HLS.MemoryMap
import Mathlib.Algebra.Order.BigOperators.Group.List

namespace Bambu
namespace HLS
namespace Memory

/-! ## Sums of sizes -/

section Sums

variable {K : Type} [DecidableEq K]

/-- The sum of the sizes of what has a symbol. -/
def sumSizes (size : K → Nat) (l : AList fun _ : K => memory_symbol) : Nat :=
  (l.entries.map fun e => size e.1).sum

theorem sumSizes_insert_le (size : K → Nat) (l : AList fun _ : K => memory_symbol) (k : K)
    (s : memory_symbol) : sumSizes size (l.insert k s) ≤ size k + sumSizes size l := by
  unfold sumSizes
  rw [AList.entries_insert, List.map_cons, List.sum_cons]
  have hsub := (List.kerase_sublist k l.entries).map fun e => size e.1
  exact Nat.add_le_add_left (hsub.sum_le_sum fun _ _ => Nat.zero_le _) _

omit [DecidableEq K] in
theorem sumSizes_add (size size' : K → Nat) (l : AList fun _ : K => memory_symbol) :
    sumSizes (fun k => size k + size' k) l = sumSizes size l + sumSizes size' l := by
  unfold sumSizes
  exact List.sum_map_add

end Sums

/-- The bytes of an internal variable or call site that is not private, and of a private one. -/
def publicSize (ir : IrManager) (private_memories : Nat → Bool) (var : Nat) : Nat :=
  bif private_memories var then 0 else ir.size var

def privateSize (ir : IrManager) (private_memories : Nat → Bool) (var : Nat) : Nat :=
  bif private_memories var then compute_n_bytes (ir.SizeAlloc var) else 0

/-- The bytes of an internal variable or call site. -/
def allocatedSize (ir : IrManager) (private_memories : Nat → Bool) (var : Nat) : Nat :=
  bif private_memories var then compute_n_bytes (ir.SizeAlloc var) else ir.size var

theorem allocatedSize_eq (ir : IrManager) (p : Nat → Bool) :
    allocatedSize ir p = fun var => publicSize ir p var + privateSize ir p var := by
  funext var
  unfold allocatedSize publicSize privateSize
  cases p var with
  | true => exact (Nat.zero_add _).symm
  | false => rfl

/-- The bytes of all internal variables, call sites and parameters. -/
def totalSize (ir : IrManager) (m : Memory) : Nat :=
  sumSizes (allocatedSize ir m.private_memories) m.in_vars +
    sumSizes (allocatedSize ir m.private_memories) m.callSites +
    sumSizes (fun k : Nat × Nat => ir.size k.2) m.parameter

/-! ## What every call keeps -/

/-- The start stays where it is. -/
def StartStays (ir : IrManager) (m : Memory) : Call → Prop
  | .add_internal_variable _ var =>
    m.null_pointer_check = true → m.is_private_memory var = true → m.in_vars.lookup var = none →
      ir.get_var_alignment var ∣ m.internal_base_address_start
  | _ => True

instance (ir : IrManager) (m : Memory) : DecidablePred (StartStays ir m)
  | .add_internal_variable _ _ => inferInstanceAs (Decidable (_ → _ → _ → _))
  | .add_external_variable _ | .add_parameter _ _ _ | .reserve_internal_space _ | .reserve_space _ =>
    inferInstanceAs (Decidable True)

/-- What holds of the sizes while the start stays. -/
structure Sized (ir : IrManager) (m : Memory) : Prop where
  alignment_pos : 0 < m.internal_base_address_alignment
  parameter_alignment_pos : 0 < m.parameter_alignment
  /-- What is not private is between the start and the running address. -/
  public_le : m.internal_base_address_start +
    (sumSizes (publicSize ir m.private_memories) m.in_vars +
      sumSizes (publicSize ir m.private_memories) m.callSites +
      sumSizes (fun k : Nat × Nat => ir.size k.2) m.parameter) ≤ m.next_base_address
  private_le : sumSizes (privateSize ir m.private_memories) m.in_vars +
    sumSizes (privateSize ir m.private_memories) m.callSites ≤ m.total_amount_of_private_memory
  maximum_le : m.maximum_private_memory_size ≤ m.total_amount_of_private_memory
  in_vars_start : ∀ var s, m.in_vars.lookup var = some s → m.is_private_memory var = true →
    s.address ≤ m.internal_base_address_start
  internal_public : ∀ funID_scope var s, m.internal.lookup (funID_scope, var) = some s →
    m.is_private_memory var = false → s.address + ir.size var ≤ m.next_base_address
  internal_private : ∀ funID_scope var s, m.internal.lookup (funID_scope, var) = some s →
    m.is_private_memory var = true → s.address ≤ m.internal_base_address_start ∧
      compute_n_bytes (ir.SizeAlloc var) ≤ m.maximum_private_memory_size

section Steps

variable {ir : IrManager} {m m' : Memory} {funID_scope var : Nat}

/-- A new symbol adds to one of the sums. -/
theorem sumSizes_insertInternal_le (ir : IrManager) (m : Memory) (funID_scope var : Nat)
    (size : Nat → Nat) (m_sym : memory_symbol) :
    sumSizes size (m.insertInternal ir funID_scope var m_sym).in_vars +
        sumSizes size (m.insertInternal ir funID_scope var m_sym).callSites ≤
      size var + (sumSizes size m.in_vars + sumSizes size m.callSites) := by
  dsimp only [insertInternal]
  split
  case isTrue =>
    have := sumSizes_insert_le size m.callSites var m_sym
    omega
  case isFalse =>
    have := sumSizes_insert_le size m.in_vars var m_sym
    omega

theorem internal_insert (ir : IrManager) (funID_scope : Nat) (P : Nat → memory_symbol → Prop)
    {m_sym : memory_symbol} (h₀ : P var m_sym)
    (h : ∀ f v s, m.internal.lookup (f, v) = some s → P v s) (f v : Nat) (s : memory_symbol)
    (hs : (m.insertInternal ir funID_scope var m_sym).internal.lookup (f, v) = some s) : P v s := by
  dsimp only [insertInternal] at hs
  by_cases hk : (f, v) = (funID_scope, var)
  · rw [hk, AList.lookup_insert] at hs
    cases hs
    rw [(Prod.mk.inj hk).2]
    exact h₀
  · rw [AList.lookup_insert_ne hk] at hs
    exact h f v s hs

theorem in_vars_insert (ir : IrManager) (funID_scope : Nat) (P : Nat → memory_symbol → Prop)
    {m_sym : memory_symbol} (h₀ : P var m_sym)
    (h : ∀ v s, m.in_vars.lookup v = some s → P v s) (v : Nat) (s : memory_symbol)
    (hs : (m.insertInternal ir funID_scope var m_sym).in_vars.lookup v = some s) : P v s := by
  dsimp only [insertInternal] at hs
  split at hs
  · exact h v s hs
  by_cases hk : v = var
  · rw [hk, AList.lookup_insert] at hs
    cases hs
    rw [hk]
    exact h₀
  · rw [AList.lookup_insert_ne hk] at hs
    exact h v s hs

/-- A symbol is added, with room for it above the running address or in the total of the
private memories. -/
theorem Sized.insert (hm : m.Sized ir) {m_sym : memory_symbol} {next total maximum : Nat}
    {rangesize : AList fun _ : Nat => Nat}
    (hnext : m.next_base_address + publicSize ir m.private_memories var ≤ next)
    (htotal : m.total_amount_of_private_memory + privateSize ir m.private_memories var ≤ total)
    (hmaximum : m.maximum_private_memory_size ≤ maximum) (hle : maximum ≤ total)
    (hpublic : m.is_private_memory var = false → m_sym.address + ir.size var ≤ next)
    (hprivate : m.is_private_memory var = true → m_sym.address ≤ m.internal_base_address_start ∧
      compute_n_bytes (ir.SizeAlloc var) ≤ maximum) :
    Sized ir { m.insertInternal ir funID_scope var m_sym with
      next_base_address := next
      rangesize := rangesize
      total_amount_of_private_memory := total
      maximum_private_memory_size := maximum } where
  alignment_pos := hm.alignment_pos
  parameter_alignment_pos := hm.parameter_alignment_pos
  public_le := by
    have hsum := hm.public_le
    have hinsert := sumSizes_insertInternal_le ir m funID_scope var
      (publicSize ir m.private_memories) m_sym
    show m.internal_base_address_start +
      (sumSizes (publicSize ir m.private_memories) (m.insertInternal ir funID_scope var m_sym).in_vars +
        sumSizes (publicSize ir m.private_memories)
          (m.insertInternal ir funID_scope var m_sym).callSites +
        sumSizes (fun k : Nat × Nat => ir.size k.2) m.parameter) ≤ next
    omega
  private_le := by
    have hsum := hm.private_le
    have hinsert := sumSizes_insertInternal_le ir m funID_scope var
      (privateSize ir m.private_memories) m_sym
    show sumSizes (privateSize ir m.private_memories)
        (m.insertInternal ir funID_scope var m_sym).in_vars +
      sumSizes (privateSize ir m.private_memories)
        (m.insertInternal ir funID_scope var m_sym).callSites ≤ total
    omega
  maximum_le := hle
  in_vars_start := in_vars_insert ir funID_scope (fun v s => m.is_private_memory v = true →
    s.address ≤ m.internal_base_address_start) (fun h => (hprivate h).1) hm.in_vars_start
  internal_public := by
    refine internal_insert ir funID_scope (fun v s => m.is_private_memory v = false →
      s.address + ir.size v ≤ next) hpublic fun f v s hs hv => ?_
    have := hm.internal_public f v s hs hv
    omega
  internal_private := by
    refine internal_insert ir funID_scope (fun v s => m.is_private_memory v = true →
      s.address ≤ m.internal_base_address_start ∧
        compute_n_bytes (ir.SizeAlloc v) ≤ maximum) hprivate fun f v s hs hv => ?_
    obtain ⟨h1, h2⟩ := hm.internal_private f v s hs hv
    exact ⟨h1, h2.trans hmaximum⟩

theorem Sized.add_internal_public (hm : m.Sized ir) (hp : m.is_private_memory var = false)
    (hfits : m.Fits ir (.add_internal_variable funID_scope var))
    (h : m.add_internal_variable ir funID_scope var = .ok m') : m'.Sized ir := by
  obtain ⟨-, rfl⟩ := add_internal_variable_public hp hm.alignment_pos hfits h
  have hlo : m.next_base_address ≤ m.publicAddress ir var :=
    le_roundUp (ir.get_var_alignment_pos var)
  have hhi : m.publicAddress ir var + ir.size var ≤
      roundUp (m.publicAddress ir var + ir.size var) m.internal_base_address_alignment :=
    le_roundUp hm.alignment_pos
  have hsize : publicSize ir m.private_memories var = ir.size var ∧
      privateSize ir m.private_memories var = 0 := by
    change m.private_memories var = false at hp
    unfold publicSize privateSize
    rw [hp]
    exact ⟨rfl, rfl⟩
  refine hm.insert ?_ ?_ le_rfl hm.maximum_le (fun _ => hhi) fun h => ?_
  · rw [hsize.1]
    omega
  · rw [hsize.2]
    exact le_rfl
  · rw [hp] at h
    cases h

/-- A private variable is below the start, which stays. -/
theorem Sized.privateSymbol_spec (hm : m.Sized ir) (hp : m.is_private_memory var = true)
    (hstays : m.StartStays ir (.add_internal_variable funID_scope var)) :
    (m.privateSymbol ir var).1.address ≤ m.internal_base_address_start ∧
      (m.privateSymbol ir var).2 = m.internal_base_address_start := by
  unfold privateSymbol
  cases hin : m.in_vars.lookup var with
  | some m_sym => exact ⟨hm.in_vars_start var m_sym hin hp, rfl⟩
  | none =>
    dsimp only
    split
    case isTrue hnull =>
      rw [roundUp_of_dvd (hstays hnull hp hin)]
      exact ⟨le_rfl, rfl⟩
    case isFalse => exact ⟨Nat.zero_le _, rfl⟩

theorem Sized.add_internal_private (hm : m.Sized ir) (hp : m.is_private_memory var = true)
    (hstays : m.StartStays ir (.add_internal_variable funID_scope var))
    (hfits : m.Fits ir (.add_internal_variable funID_scope var))
    (h : m.add_internal_variable ir funID_scope var = .ok m') : m'.Sized ir := by
  have heffect := add_internal_variable_private hp hfits h
  obtain ⟨haddress, hstart⟩ := hm.privateSymbol_spec hp hstays
  rw [hstart] at heffect
  rw [heffect]
  have hmaximum := hm.maximum_le
  have hsize : publicSize ir m.private_memories var = 0 ∧
      privateSize ir m.private_memories var = compute_n_bytes (ir.SizeAlloc var) := by
    change m.private_memories var = true at hp
    unfold publicSize privateSize
    rw [hp]
    exact ⟨rfl, rfl⟩
  refine hm.insert ?_ ?_ (le_max_left _ _) (by omega) (fun h => ?_)
    fun _ => ⟨haddress, le_max_right _ _⟩
  · rw [hsize.1]
    exact le_rfl
  · rw [hsize.2]
  · rw [hp] at h
    cases h

/-- The running address may move up. -/
theorem Sized.mono (hm : m.Sized ir) {next : Nat} (h : m.next_base_address ≤ next) :
    Sized ir { m with next_base_address := next } :=
  { hm with
    public_le := hm.public_le.trans h
    internal_public := fun f v s hs hv => (hm.internal_public f v s hs hv).trans h }

theorem Sized.add_parameter (hm : m.Sized ir) {is_last : Bool}
    (hfits : m.Fits ir (.add_parameter funID_scope var is_last)) :
    (m.add_parameter ir funID_scope var is_last).Sized ir := by
  obtain ⟨next, total, hnext, heq⟩ :=
    add_parameter_eq hm.alignment_pos hm.parameter_alignment_pos hfits
  rw [heq]
  have hsum := hm.public_le
  have hinsert := sumSizes_insert_le (fun k : Nat × Nat => ir.size k.2) m.parameter
    (funID_scope, var) ⟨var, m.next_base_address⟩
  exact { hm with
    public_le := by
      show m.internal_base_address_start +
        (sumSizes (publicSize ir m.private_memories) m.in_vars +
          sumSizes (publicSize ir m.private_memories) m.callSites +
          sumSizes (fun k : Nat × Nat => ir.size k.2)
            (m.parameter.insert (funID_scope, var) ⟨var, m.next_base_address⟩)) ≤ next
      dsimp only at hinsert
      omega
    internal_public := fun f v s hs hv => (hm.internal_public f v s hs hv).trans (by
      show m.next_base_address ≤ next
      omega) }

/-- One call keeps the sizes exact. -/
theorem Sized.call (hm : m.Sized ir) {c : Call} (hfits : m.Fits ir c) (hstays : m.StartStays ir c)
    (h : m.call ir c = .ok m') : m'.Sized ir := by
  cases c with
  | add_internal_variable f v =>
    cases hp : m.is_private_memory v with
    | true => exact hm.add_internal_private hp hstays hfits h
    | false => exact hm.add_internal_public hp hfits h
  | add_external_variable v =>
    cases h
    exact { hm with }
  | add_parameter f v is_last =>
    cases h
    exact hm.add_parameter hfits
  | reserve_internal_space space =>
    cases h
    obtain ⟨next, hle, heq⟩ := reserve_internal_space_eq hm.alignment_pos hfits
    rw [heq]
    exact hm.mono hle
  | reserve_space space =>
    cases h
    exact { hm with }

end Steps

/-! ## The sizes -/

/-- What is computed from the map, as the true sizes. -/
structure SizesExact (ir : IrManager) (m : Memory) : Prop where
  start_le : m.internal_base_address_start ≤ m.next_base_address
  internal_memory :
    m.internal_base_address_start + m.get_allocated_internal_memory = m.next_base_address
  space : m.internal_base_address_start + m.get_allocated_space =
    m.total_amount_of_private_memory + m.next_base_address
  total_le : totalSize ir m ≤ m.get_allocated_space
  /-- Private variables included. -/
  max_address : ∀ funID_scope var s, m.internal.lookup (funID_scope, var) = some s →
    s.address + allocatedSize ir m.private_memories var ≤ m.get_max_address

theorem totalSize_eq (ir : IrManager) (m : Memory) : totalSize ir m =
    (sumSizes (publicSize ir m.private_memories) m.in_vars +
      sumSizes (publicSize ir m.private_memories) m.callSites +
      sumSizes (fun k : Nat × Nat => ir.size k.2) m.parameter) +
    (sumSizes (privateSize ir m.private_memories) m.in_vars +
      sumSizes (privateSize ir m.private_memories) m.callSites) := by
  unfold totalSize
  rw [allocatedSize_eq, sumSizes_add, sumSizes_add]
  omega

theorem Sized.sizesExact {ir : IrManager} {m : Memory} (hm : m.Sized ir)
    (hfits : m.total_amount_of_private_memory + m.next_base_address < 2 ^ 64) :
    m.SizesExact ir := by
  have hpublic := hm.public_le
  have hprivate := hm.private_le
  have hmax := hm.maximum_le
  have hinternal : m.get_allocated_internal_memory =
      m.next_base_address - m.internal_base_address_start := wordSub_eq (by omega) (by omega)
  have hspace : m.get_allocated_space =
      m.total_amount_of_private_memory + m.next_base_address - m.internal_base_address_start := by
    unfold get_allocated_space word
    rw [Nat.mod_eq_of_lt hfits]
    exact wordSub_eq (by omega) hfits
  have hmaximum : m.get_max_address = max m.next_base_address
      (m.maximum_private_memory_size + m.internal_base_address_start) := by
    unfold get_max_address word
    rw [Nat.mod_eq_of_lt (by omega)]
  refine ⟨by omega, by omega, by omega, ?_, fun f v s hs => ?_⟩
  · rw [totalSize_eq, hspace]
    omega
  · rw [hmaximum]
    unfold allocatedSize
    cases hp : m.private_memories v with
    | true =>
      obtain ⟨h1, h2⟩ := hm.internal_private f v s hs hp
      rw [cond_true]
      omega
    | false =>
      have h1 := hm.internal_public f v s hs hp
      rw [cond_false]
      omega

theorem create_sized {ir : IrManager} {private_memories : Nat → Bool}
    {off_base_address max_bram : Nat}
    {null_pointer_check initial_internal_address_p : Bool} {initial_internal_address : Nat}
    (h0 : 0 < 2 * max_bram % 2 ^ 32 / 8) :
    (create private_memories off_base_address max_bram null_pointer_check initial_internal_address_p
      initial_internal_address).Sized ir :=
  ⟨h0, (by decide : 0 < 16), le_rfl, le_rfl, le_rfl, fun v s hs => (by cases hs),
    fun f v s hs => (by cases hs), fun f v s hs => (by cases hs)⟩

/-- In every run in which no private variable moves the start, and whose sizes fit, what is computed
from the memory map is exact. -/
theorem memory_size_exact {ir : IrManager} {private_memories : Nat → Bool}
    {off_base_address max_bram : Nat} {null_pointer_check initial_internal_address_p : Bool}
    {initial_internal_address : Nat} (h0 : 0 < 2 * max_bram % 2 ^ 32 / 8) {m : Memory}
    (hrun : Run ir (fun m c => m.Fits ir c ∧ m.StartStays ir c)
      (create private_memories off_base_address max_bram null_pointer_check initial_internal_address_p
        initial_internal_address) m)
    (hfits : m.total_amount_of_private_memory + m.next_base_address < 2 ^ 64) : m.SizesExact ir :=
  (hrun.invariant (create_sized h0) fun _ _ _ hm hc hstep => hm.call hc.1 hc.2 hstep).sizesExact hfits

/-- Variables of four bytes, of which variable 5 has an alignment of 16 bytes, others of four. -/
def fourBytes : IrManager where
  isCallStmt _ := false
  SizeAlloc _ := 32
  algn var := if var = 5 then some 128 else some 32
  bus_addr_bitsize := 32

def checked (private_memories : Nat → Bool) : Memory := create private_memories 0 32 true false 0

/-- A private variable that is aligned, and another one that is not private. -/
theorem memory_size_exact_private :
    ∃ m, Run fourBytes (fun m c => m.Fits fourBytes c ∧ m.StartStays fourBytes c)
      (checked fun var => var = 2) m ∧ m.SizesExact fourBytes := by
  have hrun : ∃ m, Run fourBytes (fun m c => m.Fits fourBytes c ∧ m.StartStays fourBytes c)
      (checked fun var => var = 2) m ∧
        m.total_amount_of_private_memory + m.next_base_address < 2 ^ 64 := by
    refine ⟨_, .call (.call .refl (c := .add_internal_variable 1 2) ⟨?_, ?_⟩ rfl)
      (c := .add_internal_variable 1 3) ⟨?_, ?_⟩ rfl, ?_⟩ <;> decide
  obtain ⟨m, hrun, hfits⟩ := hrun
  exact ⟨m, hrun, memory_size_exact (by decide) hrun hfits⟩

/-- A private variable with an alignment of 16 bytes moves the start from 8 to 16, past the running
address. -/
theorem memory_size_not_exact :
    ¬ ∀ (ir : IrManager) (private_memories : Nat → Bool) (off_base_address max_bram : Nat)
      (null_pointer_check initial_internal_address_p : Bool) (initial_internal_address : Nat) (m : Memory),
      0 < 2 * max_bram % 2 ^ 32 / 8 →
      Run ir (Fits ir) (create private_memories off_base_address max_bram null_pointer_check
        initial_internal_address_p initial_internal_address) m →
      m.total_amount_of_private_memory + m.next_base_address < 2 ^ 64 →
      m.internal_base_address_start ≤ m.next_base_address := by
  intro h
  have hrun : ∃ m, Run fourBytes (Fits fourBytes) (checked fun var => var = 5) m ∧
      m.total_amount_of_private_memory + m.next_base_address < 2 ^ 64 ∧
        ¬ m.internal_base_address_start ≤ m.next_base_address := by
    refine ⟨_, .call .refl (c := .add_internal_variable 1 5) ?_ rfl, ?_, ?_⟩ <;> decide
  obtain ⟨m, hrun, hfits, hpast⟩ := hrun
  exact hpast (h fourBytes (fun var => var = 5) 0 32 true false 0 m (by decide) hrun hfits)

end Memory
end HLS
end Bambu
