/-
  Bambu.HLS.Memory

  `memory.cpp`: the addresses of variables, parameters and call sites.

  One running address is advanced by internal variables, parameters and reservations, another one
  by external variables.  What a call allocates lies between the running address before it and the
  one after it (`Memory.step_grows`), so that nothing overlaps (`Memory.Mapped`), and the range of
  an internal variable reaches up to the running address after it.

  The start of the internal addresses is moved by private variables where null pointers are
  checked, and can so pass the running address; sizes are unsigned differences of the two.
-/

import Bambu.Utility.Common
import Mathlib.Data.List.AList
import Mathlib.Order.CompletePartialOrder

namespace Bambu
namespace HLS

/-! ## Sizes and alignments -/

/-- A 64-bit unsigned value. -/
def word (x : Nat) : Nat := x % 2 ^ 64

/-- The difference of two of them. -/
def wordSub (x y : Nat) : Nat := word (x + 2 ^ 64 - y)

/-- The first multiple from an address on. -/
def roundUp (address alignment : Nat) : Nat :=
  (address / alignment + if address % alignment ≠ 0 then 1 else 0) * alignment

def align (address alignment : Nat) : Nat := word (roundUp address alignment)

def compute_n_bytes (bitsize : Nat) : Nat := bitsize / 8 + if bitsize % 8 ≠ 0 then 1 else 0

/-- What is asked of a node. -/
structure IrManager where
  /-- The node is a `call_stmt`. -/
  isCallStmt : Nat → Bool
  /-- The size of the node's type in bits. -/
  SizeAlloc : Nat → Nat
  /-- The alignment of a `variable_val_node` in bits. -/
  algn : Nat → Option Nat
  bus_addr_bitsize : Nat

namespace IrManager

def get_var_alignment (ir : IrManager) (var : Nat) : Nat :=
  match ir.algn var with
  | some algn => if algn < 8 then 1 else algn / 8
  | none => 1

/-- The bytes that are allocated for a node. -/
def size (ir : IrManager) (var : Nat) : Nat :=
  if ir.isCallStmt var then compute_n_bytes ir.bus_addr_bitsize
  else compute_n_bytes (ir.SizeAlloc var)

end IrManager

/-! ## The state -/

/-- `memory_symbol`: the address of a variable. -/
structure memory_symbol where
  var : Nat
  address : Nat
  deriving DecidableEq

structure Memory where
  null_pointer_check : Bool
  private_memories : Nat → Bool
  internal_base_address_alignment : Nat
  external_base_address_alignment : Nat
  parameter_alignment : Nat
  internal_base_address_start : Nat
  next_base_address : Nat
  next_off_base_address : Nat
  maximum_private_memory_size : Nat
  total_amount_of_private_memory : Nat
  total_amount_of_parameter_memory : Nat
  /-- By function and variable. -/
  internal : AList fun _ : Nat × Nat => memory_symbol
  in_vars : AList fun _ : Nat => memory_symbol
  callSites : AList fun _ : Nat => memory_symbol
  external : AList fun _ : Nat => memory_symbol
  /-- By function and variable. -/
  parameter : AList fun _ : Nat × Nat => memory_symbol
  params : AList fun _ : Nat => memory_symbol
  rangesize : AList fun _ : Nat => Nat

namespace Memory

/-- The constructor; `private_memories` is filled before anything is allocated. -/
def create (private_memories : Nat → Bool) (off_base_address max_bram : Nat)
    (null_pointer_check initial_internal_address_p : Bool) (initial_internal_address : Nat) :
    Memory :=
  let max_bus_size := 2 * max_bram % 2 ^ 32
  let alignment := max_bus_size / 8
  let start :=
    if null_pointer_check && !initial_internal_address_p then alignment
    else if initial_internal_address_p && initial_internal_address ≠ 0 then
      align initial_internal_address alignment
    else 0
  { null_pointer_check
    private_memories
    internal_base_address_alignment := alignment
    external_base_address_alignment := alignment
    parameter_alignment := 16
    internal_base_address_start := start
    next_base_address := start
    next_off_base_address := off_base_address
    maximum_private_memory_size := 0
    total_amount_of_private_memory := 0
    total_amount_of_parameter_memory := 0
    internal := ∅
    in_vars := ∅
    callSites := ∅
    external := ∅
    parameter := ∅
    params := ∅
    rangesize := ∅ }

variable (ir : IrManager) (m : Memory)

def is_private_memory (var : Nat) : Bool := m.private_memories var

def compute_next_base_address (address var alignment : Nat) : Nat :=
  align (word (address + ir.size var)) alignment

/-- Where `add_internal_symbol` keeps the symbol itself. -/
def insertInternal (funID_scope var : Nat) (m_sym : memory_symbol) : Memory :=
  { m with
    internal := m.internal.insert (funID_scope, var) m_sym
    callSites := if ir.isCallStmt var then m.callSites.insert var m_sym else m.callSites
    in_vars := if ir.isCallStmt var then m.in_vars else m.in_vars.insert var m_sym }

def add_internal_symbol (funID_scope var : Nat) (m_sym : memory_symbol) : Except Error Memory := do
  throwAssert (m.in_vars.lookup var = none ∨ m.is_private_memory var)
    "variable already allocated inside this module"
  let m := m.insertInternal ir funID_scope var m_sym
  if m.is_private_memory var then
    let allocated_memory := compute_n_bytes (ir.SizeAlloc var)
    .ok { m with
      rangesize := m.rangesize.insert var (align allocated_memory m.internal_base_address_alignment)
      total_amount_of_private_memory := word (m.total_amount_of_private_memory + allocated_memory)
      maximum_private_memory_size := max m.maximum_private_memory_size allocated_memory }
  else
    let address := m_sym.address
    let new_address := compute_next_base_address ir address var m.internal_base_address_alignment
    let next_base_address := max m.next_base_address new_address
    .ok { m with
      next_base_address
      rangesize := m.rangesize.insert var (wordSub next_base_address address) }

def add_internal_variable (funID_scope var : Nat) : Except Error Memory :=
  match m.in_vars.lookup var with
  | some m_sym => m.add_internal_symbol ir funID_scope var m_sym
  | none =>
    if m.is_private_memory var then
      if m.null_pointer_check then
        let start := align m.internal_base_address_start (ir.get_var_alignment var)
        { m with internal_base_address_start := start }.add_internal_symbol ir funID_scope var
          ⟨var, start⟩
      else m.add_internal_symbol ir funID_scope var ⟨var, 0⟩
    else
      let next := align m.next_base_address (ir.get_var_alignment var)
      { m with next_base_address := next }.add_internal_symbol ir funID_scope var ⟨var, next⟩

def add_external_symbol (var : Nat) (m_sym : memory_symbol) : Memory :=
  let new_address := compute_next_base_address ir m_sym.address var m.external_base_address_alignment
  { m with
    external := m.external.insert var m_sym
    next_off_base_address := max m.next_off_base_address new_address }

def add_external_variable (var : Nat) : Memory :=
  let next := align m.next_off_base_address (ir.get_var_alignment var)
  { m with next_off_base_address := next }.add_external_symbol ir var ⟨var, next⟩

def add_parameter_symbol (funID_scope var : Nat) (m_sym : memory_symbol) : Memory :=
  let address := m_sym.address
  let next := compute_next_base_address ir m.next_base_address var m.parameter_alignment
  let next := max next address
  { m with
    params := m.params.insert var m_sym
    parameter := m.parameter.insert (funID_scope, var) m_sym
    next_base_address := next
    total_amount_of_parameter_memory :=
      word (m.total_amount_of_parameter_memory + wordSub next address) }

def add_parameter (funID_scope var : Nat) (is_last : Bool) : Memory :=
  let m := m.add_parameter_symbol ir funID_scope var ⟨var, m.next_base_address⟩
  if is_last then
    let address := m.next_base_address
    let next := align m.next_base_address m.internal_base_address_alignment
    { m with
      next_base_address := next
      total_amount_of_parameter_memory :=
        word (m.total_amount_of_parameter_memory + wordSub next address) }
  else m

def has_base_address (var : Nat) : Prop :=
  var ∈ m.external ∨ var ∈ m.in_vars ∨ var ∈ m.params ∨ var ∈ m.callSites

instance (var : Nat) : Decidable (m.has_base_address var) := inferInstanceAs (Decidable (_ ∨ _))

def get_rangesize (var : Nat) : Except Error Nat := do
  throwAssert (m.has_base_address var) ("Variable not yet allocated: @" ++ toString var)
  match m.rangesize.lookup var with
  | some size => .ok size
  | none => .error (.unreachable "map::at")

def reserve_space (space : Nat) : Memory :=
  { m with
    next_off_base_address :=
      align (word (m.next_off_base_address + space)) m.internal_base_address_alignment }

def reserve_internal_space (space : Nat) : Memory :=
  { m with
    next_base_address := align (word (m.next_base_address + space)) m.internal_base_address_alignment }

/-- The alignment must be a power of two. -/
def set_internal_base_address_alignment (alignment : Nat) : Except Error Memory := do
  throwAssert (alignment ≠ 0 ∧ alignment &&& (alignment - 1) = 0) "alignment must be a power of two"
  let start := align m.internal_base_address_start alignment
  .ok { m with
    internal_base_address_alignment := alignment
    internal_base_address_start := start
    next_base_address := start }

def get_allocated_space : Nat :=
  wordSub (word (m.total_amount_of_private_memory + m.next_base_address)) m.internal_base_address_start

def get_allocated_internal_memory : Nat := wordSub m.next_base_address m.internal_base_address_start

def get_max_address : Nat :=
  max m.next_base_address (word (m.maximum_private_memory_size + m.internal_base_address_start))

/-! ## Calls -/

/-- A call that allocates. -/
inductive Call where
  | add_internal_variable (funID_scope var : Nat)
  | add_external_variable (var : Nat)
  | add_parameter (funID_scope var : Nat) (is_last : Bool)
  | reserve_internal_space (space : Nat)
  | reserve_space (space : Nat)

def call : Call → Except Error Memory
  | .add_internal_variable funID_scope var => m.add_internal_variable ir funID_scope var
  | .add_external_variable var => .ok (m.add_external_variable ir var)
  | .add_parameter funID_scope var is_last => .ok (m.add_parameter ir funID_scope var is_last)
  | .reserve_internal_space space => .ok (m.reserve_internal_space space)
  | .reserve_space space => .ok (m.reserve_space space)

/-- The addresses that a call computes fit 64 bits. -/
def Fits : Call → Prop
  | .add_internal_variable _ var =>
    if m.is_private_memory var then
      roundUp m.internal_base_address_start (ir.get_var_alignment var) < 2 ^ 64 ∧
        m.total_amount_of_private_memory + compute_n_bytes (ir.SizeAlloc var) < 2 ^ 64
    else
      roundUp (roundUp m.next_base_address (ir.get_var_alignment var) + ir.size var)
        m.internal_base_address_alignment < 2 ^ 64
  | .add_external_variable var =>
    roundUp (roundUp m.next_off_base_address (ir.get_var_alignment var) + ir.size var)
      m.external_base_address_alignment < 2 ^ 64
  | .add_parameter _ var _ =>
    roundUp (roundUp (m.next_base_address + ir.size var) m.parameter_alignment)
      m.internal_base_address_alignment < 2 ^ 64
  | .reserve_internal_space space =>
    roundUp (m.next_base_address + space) m.internal_base_address_alignment < 2 ^ 64
  | .reserve_space space =>
    roundUp (m.next_off_base_address + space) m.internal_base_address_alignment < 2 ^ 64

instance : DecidablePred (Fits ir m)
  | .add_internal_variable _ _ => inferInstanceAs (Decidable (ite _ _ _))
  | .add_external_variable _ => inferInstanceAs (Decidable (_ < _))
  | .add_parameter _ _ _ => inferInstanceAs (Decidable (_ < _))
  | .reserve_internal_space _ => inferInstanceAs (Decidable (_ < _))
  | .reserve_space _ => inferInstanceAs (Decidable (_ < _))

end Memory

/-! ## Arithmetic -/

theorem le_roundUp {address alignment : Nat} (h : 0 < alignment) :
    address ≤ roundUp address alignment := by
  have hdiv := Nat.div_add_mod address alignment
  have hlt := Nat.mod_lt address h
  unfold roundUp
  split
  case isTrue =>
    rw [Nat.add_mul, Nat.one_mul, Nat.mul_comm]
    omega
  case isFalse h0 =>
    rw [Nat.add_zero, Nat.mul_comm]
    omega

theorem dvd_roundUp (address alignment : Nat) : alignment ∣ roundUp address alignment :=
  Nat.dvd_mul_left _ _

/-- An aligned address is not moved. -/
theorem roundUp_of_dvd {address alignment : Nat} (h : alignment ∣ address) :
    roundUp address alignment = address := by
  unfold roundUp
  rw [if_neg (not_not.mpr (Nat.mod_eq_zero_of_dvd h)), Nat.add_zero]
  exact Nat.div_mul_cancel h

theorem align_eq {address alignment : Nat} (h : roundUp address alignment < 2 ^ 64) :
    align address alignment = roundUp address alignment := Nat.mod_eq_of_lt h

theorem wordSub_eq {x y : Nat} (h : y ≤ x) (hx : x < 2 ^ 64) : wordSub x y = x - y := by
  unfold wordSub word
  rw [show x + 2 ^ 64 - y = (x - y) + 2 ^ 64 by omega, Nat.add_mod_right]
  exact Nat.mod_eq_of_lt (by omega)

theorem IrManager.get_var_alignment_pos (ir : IrManager) (var : Nat) :
    0 < ir.get_var_alignment var := by
  unfold get_var_alignment
  split
  case h_1 algn _ =>
    split
    case isTrue => exact Nat.one_pos
    case isFalse h => exact Nat.div_pos (Nat.not_lt.mp h) (by decide)
  case h_2 => exact Nat.one_pos

/-! ## What a call does -/

namespace Memory

section Effects

variable {ir : IrManager} {m m' : Memory} {funID_scope var : Nat}

/-- The symbol that a private variable gets, and the start after it. -/
def privateSymbol (ir : IrManager) (m : Memory) (var : Nat) : memory_symbol × Nat :=
  match m.in_vars.lookup var with
  | some m_sym => (m_sym, m.internal_base_address_start)
  | none =>
    if m.null_pointer_check then
      (⟨var, roundUp m.internal_base_address_start (ir.get_var_alignment var)⟩,
        roundUp m.internal_base_address_start (ir.get_var_alignment var))
    else (⟨var, 0⟩, m.internal_base_address_start)

/-- The address that an internal variable gets which is not private. -/
def publicAddress (ir : IrManager) (m : Memory) (var : Nat) : Nat :=
  roundUp m.next_base_address (ir.get_var_alignment var)

theorem compute_next_base_address_eq {address alignment : Nat} (h0 : 0 < alignment)
    (h : roundUp (address + ir.size var) alignment < 2 ^ 64) :
    compute_next_base_address ir address var alignment = roundUp (address + ir.size var) alignment := by
  have hle : address + ir.size var ≤ roundUp (address + ir.size var) alignment := le_roundUp h0
  unfold compute_next_base_address word
  rw [Nat.mod_eq_of_lt (hle.trans_lt h)]
  exact align_eq h

/-- A new internal variable is placed behind the running address, which then is behind it. -/
theorem add_internal_variable_public (hp : m.is_private_memory var = false)
    (h0 : 0 < m.internal_base_address_alignment)
    (hfits : m.Fits ir (.add_internal_variable funID_scope var))
    (h : m.add_internal_variable ir funID_scope var = .ok m') :
    m.in_vars.lookup var = none ∧
      m' = { m.insertInternal ir funID_scope var ⟨var, m.publicAddress ir var⟩ with
        next_base_address := roundUp (m.publicAddress ir var + ir.size var)
          m.internal_base_address_alignment
        rangesize := m.rangesize.insert var (roundUp (m.publicAddress ir var + ir.size var)
          m.internal_base_address_alignment - m.publicAddress ir var) } := by
  unfold Fits at hfits
  dsimp only at hfits
  rw [if_neg (by rw [hp]; exact Bool.false_ne_true)] at hfits
  change roundUp (m.publicAddress ir var + ir.size var) _ < 2 ^ 64 at hfits
  have hle : m.publicAddress ir var + ir.size var ≤
      roundUp (m.publicAddress ir var + ir.size var) m.internal_base_address_alignment :=
        le_roundUp h0
  unfold add_internal_variable at h
  cases hin : m.in_vars.lookup var with
  | some m_sym =>
    rw [hin] at h
    obtain ⟨hassert, -⟩ := throwAssert_bind_ok h
    rcases hassert with hnone | hprivate
    · rw [hin] at hnone
      cases hnone
    · rw [hp] at hprivate
      cases hprivate
  | none =>
    refine ⟨rfl, ?_⟩
    rw [hin] at h
    dsimp only at h
    rw [if_neg (by rw [hp]; exact Bool.false_ne_true)] at h
    have halign : align m.next_base_address (ir.get_var_alignment var) = m.publicAddress ir var :=
      align_eq (show m.publicAddress ir var < 2 ^ 64 by omega)
    rw [halign] at h
    obtain ⟨-, h⟩ := throwAssert_bind_ok h
    dsimp only at h
    split at h
    case isTrue hpriv =>
      change m.is_private_memory var = true at hpriv
      rw [hp] at hpriv
      cases hpriv
    case isFalse =>
      rw [← Except.ok.inj h]
      dsimp only [insertInternal]
      rw [compute_next_base_address_eq h0 hfits, max_eq_right (by omega),
        wordSub_eq (by omega) hfits]

/-- A private variable moves the start at most, and has no part of the running address. -/
theorem add_internal_variable_private (hp : m.is_private_memory var = true)
    (hfits : m.Fits ir (.add_internal_variable funID_scope var))
    (h : m.add_internal_variable ir funID_scope var = .ok m') :
    m' = { m.insertInternal ir funID_scope var (m.privateSymbol ir var).1 with
      internal_base_address_start := (m.privateSymbol ir var).2
      rangesize := m.rangesize.insert var
        (align (compute_n_bytes (ir.SizeAlloc var)) m.internal_base_address_alignment)
      total_amount_of_private_memory :=
        m.total_amount_of_private_memory + compute_n_bytes (ir.SizeAlloc var)
      maximum_private_memory_size :=
        max m.maximum_private_memory_size (compute_n_bytes (ir.SizeAlloc var)) } := by
  unfold Fits at hfits
  dsimp only at hfits
  rw [if_pos hp] at hfits
  obtain ⟨hstart, htotal⟩ := hfits
  have hword : word (m.total_amount_of_private_memory + compute_n_bytes (ir.SizeAlloc var)) =
      m.total_amount_of_private_memory + compute_n_bytes (ir.SizeAlloc var) :=
        Nat.mod_eq_of_lt htotal
  have hsymbol : ∀ (m₀ : Memory) (m_sym : memory_symbol),
      m₀.add_internal_symbol ir funID_scope var m_sym = .ok m' →
      m₀.private_memories = m.private_memories →
      m₀.total_amount_of_private_memory = m.total_amount_of_private_memory →
      m' = { m₀.insertInternal ir funID_scope var m_sym with
        rangesize := m₀.rangesize.insert var
          (align (compute_n_bytes (ir.SizeAlloc var)) m₀.internal_base_address_alignment)
        total_amount_of_private_memory :=
          m.total_amount_of_private_memory + compute_n_bytes (ir.SizeAlloc var)
        maximum_private_memory_size :=
          max m₀.maximum_private_memory_size (compute_n_bytes (ir.SizeAlloc var)) } := by
    intro m₀ m_sym h hsame htotal
    obtain ⟨-, h⟩ := throwAssert_bind_ok h
    dsimp only at h
    split at h
    case isTrue =>
      rw [← Except.ok.inj h]
      dsimp only [insertInternal]
      rw [htotal, hword]
    case isFalse hpriv =>
      change ¬ m₀.private_memories var = true at hpriv
      rw [hsame] at hpriv
      exact absurd hp hpriv
  unfold add_internal_variable at h
  unfold privateSymbol
  cases hin : m.in_vars.lookup var with
  | some m_sym =>
    rw [hin] at h
    exact hsymbol m m_sym h rfl rfl
  | none =>
    rw [hin] at h
    dsimp only at h
    rw [if_pos hp, align_eq hstart] at h
    dsimp only
    split at h
    case isTrue hnull =>
      rw [if_pos hnull]
      exact hsymbol _ _ h rfl rfl
    case isFalse hnull =>
      rw [if_neg hnull]
      exact hsymbol m _ h rfl rfl

theorem add_external_variable_eq (h0 : 0 < m.external_base_address_alignment)
    (hfits : m.Fits ir (.add_external_variable var)) :
    m.add_external_variable ir var = { m with
      external := m.external.insert var
        ⟨var, roundUp m.next_off_base_address (ir.get_var_alignment var)⟩
      next_off_base_address :=
        roundUp (roundUp m.next_off_base_address (ir.get_var_alignment var) + ir.size var)
          m.external_base_address_alignment } := by
  unfold Fits at hfits
  dsimp only at hfits
  have hle : roundUp m.next_off_base_address (ir.get_var_alignment var) + ir.size var ≤
      roundUp (roundUp m.next_off_base_address (ir.get_var_alignment var) + ir.size var)
        m.external_base_address_alignment := le_roundUp h0
  have halign : align m.next_off_base_address (ir.get_var_alignment var) =
      roundUp m.next_off_base_address (ir.get_var_alignment var) := align_eq (by omega)
  unfold add_external_variable add_external_symbol
  dsimp only
  rw [halign, compute_next_base_address_eq h0 hfits, max_eq_right (by omega)]

/-- A parameter is placed at the running address, which then is behind it. -/
theorem add_parameter_eq (h0 : 0 < m.internal_base_address_alignment)
    (h16 : 0 < m.parameter_alignment)
    {is_last : Bool} (hfits : m.Fits ir (.add_parameter funID_scope var is_last)) :
    ∃ next total, m.next_base_address + ir.size var ≤ next ∧
      m.add_parameter ir funID_scope var is_last = { m with
        params := m.params.insert var ⟨var, m.next_base_address⟩
        parameter := m.parameter.insert (funID_scope, var) ⟨var, m.next_base_address⟩
        next_base_address := next
        total_amount_of_parameter_memory := total } := by
  unfold Fits at hfits
  dsimp only at hfits
  have hle : m.next_base_address + ir.size var ≤
      roundUp (m.next_base_address + ir.size var) m.parameter_alignment := le_roundUp h16
  have hlast : roundUp (m.next_base_address + ir.size var) m.parameter_alignment ≤
      roundUp (roundUp (m.next_base_address + ir.size var) m.parameter_alignment)
        m.internal_base_address_alignment := le_roundUp h0
  have hsymbol : ∃ total, m.add_parameter_symbol ir funID_scope var ⟨var, m.next_base_address⟩ =
      { m with
        params := m.params.insert var ⟨var, m.next_base_address⟩
        parameter := m.parameter.insert (funID_scope, var) ⟨var, m.next_base_address⟩
        next_base_address := roundUp (m.next_base_address + ir.size var) m.parameter_alignment
        total_amount_of_parameter_memory := total } := by
    unfold add_parameter_symbol
    dsimp only
    rw [compute_next_base_address_eq h16 (by omega), max_eq_left (by omega)]
    exact ⟨_, rfl⟩
  obtain ⟨total, hsymbol⟩ := hsymbol
  unfold add_parameter
  rw [hsymbol]
  dsimp only
  split
  case isTrue =>
    rw [align_eq hfits]
    exact ⟨_, _, hle.trans hlast, rfl⟩
  case isFalse => exact ⟨_, _, hle, rfl⟩

theorem reserve_internal_space_eq (h0 : 0 < m.internal_base_address_alignment) {space : Nat}
    (hfits : m.Fits ir (.reserve_internal_space space)) :
    ∃ next, m.next_base_address ≤ next ∧
      m.reserve_internal_space space = { m with next_base_address := next } := by
  unfold Fits at hfits
  dsimp only at hfits
  have hle : m.next_base_address + space ≤
      roundUp (m.next_base_address + space) m.internal_base_address_alignment := le_roundUp h0
  have hword : word (m.next_base_address + space) = m.next_base_address + space :=
    Nat.mod_eq_of_lt (by omega)
  unfold reserve_internal_space
  rw [hword, align_eq hfits]
  exact ⟨_, by omega, rfl⟩

theorem reserve_space_eq (h0 : 0 < m.internal_base_address_alignment) {space : Nat}
    (hfits : m.Fits ir (.reserve_space space)) :
    ∃ next, m.next_off_base_address ≤ next ∧
      m.reserve_space space = { m with next_off_base_address := next } := by
  unfold Fits at hfits
  dsimp only at hfits
  have hle : m.next_off_base_address + space ≤
      roundUp (m.next_off_base_address + space) m.internal_base_address_alignment := le_roundUp h0
  have hword : word (m.next_off_base_address + space) = m.next_off_base_address + space :=
    Nat.mod_eq_of_lt (by omega)
  unfold reserve_space
  rw [hword, align_eq hfits]
  exact ⟨_, by omega, rfl⟩

end Effects

end Memory

end HLS
end Bambu
