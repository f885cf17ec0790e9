/-
  Bambu.HLS.MemDominator.FunctionMem

  `allocate_function_mem` of `mem_dominator_allocation`: the variables and the parameters of one
  function as calls on a memory object.

  The running address after such calls, and what they take up behind it, is a function of the
  address before them, of the private variables and of the alignment alone (`Layout.last`,
  `Layout.ranges`, `Memory.allocate_spec`).
-/

import Bambu.HLS.MemoryMap

namespace Bambu
namespace HLS

open Memory (Call)

/-! ## The source -/

/-- A variable of `memory_allocation_map`. -/
structure AllocatedVar where
  var_id : Nat
  is_internal : Bool
  /-- The functions that use it; it is asserted that there is one. -/
  where_used : List Nat
  used : is_internal = true → where_used ≠ []
  /-- A function that uses it has it in `get_dynamic_address`. -/
  is_dynamic_address_used : Bool
  /-- It is in `get_written_objects`. -/
  is_written : Bool

/-- What is looked up for a function. -/
structure FunctionMem where
  f_id : Nat
  /-- Its variables in `memory_allocation_map`, none if there is no entry. -/
  mem_map : List AllocatedVar
  isOmpLambdaFunction : Bool
  /-- For a top function it is `memory_mapped_top_if`. -/
  hasToBeInterfaced : Bool
  get_parameters : List Nat
  /-- Zero where nothing is returned. -/
  function_return : Nat

/-- Where private or local memories are not wanted. -/
structure MemOptions where
  no_private_mem : Bool
  no_local_mem : Bool

/-- A variable that is only read gets a memory in each function that uses it. -/
def variableCalls (options : MemOptions) (f_id : Nat) (v : AllocatedVar) : List Call :=
  if v.is_internal then
    if !v.is_dynamic_address_used && !v.is_written &&
        (!options.no_private_mem && !options.no_local_mem) then
      v.where_used.map fun user => .add_internal_variable user v.var_id
    else [.add_internal_variable f_id v.var_id]
  else [.add_external_variable v.var_id]

/-- The loop of `allocate_parameters`. -/
def parameterCalls (f_id function_return : Nat) : List Nat → List Call
  | [] => []
  | [par] => [.add_parameter f_id par (function_return = 0)]
  | par :: par' :: pars =>
    .add_parameter f_id par false :: parameterCalls f_id function_return (par' :: pars)

/-- The start register comes first; a lambda has nothing else. -/
def allocate_parameters (f : FunctionMem) : List Call :=
  .add_parameter f.f_id f.f_id
      ((f.get_parameters.isEmpty && decide (f.function_return = 0)) || f.isOmpLambdaFunction) ::
    if f.isOmpLambdaFunction then []
    else parameterCalls f.f_id f.function_return f.get_parameters ++
      if f.function_return = 0 then [] else [.add_parameter f.f_id f.function_return true]

def allocate_function_mem (options : MemOptions) (f : FunctionMem) : List Call :=
  f.mem_map.flatMap (variableCalls options f.f_id) ++
    if f.f_id ≠ 0 ∧ (f.isOmpLambdaFunction || f.hasToBeInterfaced) then allocate_parameters f else []

namespace Memory

/-- What a call takes up at the internal addresses: from the address that it gives to the one
    behind the variable or parameter. -/
def taken (ir : IrManager) (m : Memory) (c : Call) (m' : Memory) : Option (Nat × Nat) :=
  match c with
  | .add_internal_variable f v =>
    if m.is_private_memory v then none
    else (m'.internal.lookup (f, v)).map fun m_sym => (m_sym.address, m_sym.address + ir.size v)
  | .add_parameter f v _ =>
    (m'.parameter.lookup (f, v)).map fun m_sym => (m_sym.address, m_sym.address + ir.size v)
  | _ => none

/-- The calls one after the other, with what they take up. -/
def allocate (ir : IrManager) : Memory → List Call → Except Error (Memory × List (Nat × Nat))
  | m, [] => .ok (m, [])
  | m, c :: calls =>
    (m.call ir c).bind fun m' =>
      (allocate ir m' calls).map fun r => (r.1, (taken ir m c m').toList ++ r.2)

end Memory

/-! ## The layout -/

/-- What the addresses depend on. -/
structure Layout where
  private_memories : Nat → Bool
  alignment : Nat

namespace Layout

variable (ir : IrManager) (L : Layout)

/-- The running address after a call. -/
def next (address : Nat) : Call → Nat
  | .add_internal_variable _ var =>
    if L.private_memories var then address
    else roundUp (roundUp address (ir.get_var_alignment var) + ir.size var) L.alignment
  | .add_parameter _ var is_last =>
    if is_last then roundUp (roundUp (address + ir.size var) 16) L.alignment
    else roundUp (address + ir.size var) 16
  | .reserve_internal_space space => roundUp (address + space) L.alignment
  | .add_external_variable _ | .reserve_space _ => address

/-- The running address after calls. -/
def last (address : Nat) (calls : List Call) : Nat := calls.foldl (L.next ir) address

/-- What a call takes up. -/
def range (address : Nat) : Call → Option (Nat × Nat)
  | .add_internal_variable _ var =>
    if L.private_memories var then none
    else some (roundUp address (ir.get_var_alignment var),
      roundUp address (ir.get_var_alignment var) + ir.size var)
  | .add_parameter _ var _ => some (address, address + ir.size var)
  | _ => none

/-- What calls take up. -/
def ranges (address : Nat) : List Call → List (Nat × Nat)
  | [] => []
  | c :: calls => (L.range ir address c).toList ++ ranges (L.next ir address c) calls

/-- The variable that a call gives an address; call sites may get several. -/
def sharedVar : Call → List Nat
  | .add_internal_variable _ var =>
    if L.private_memories var || ir.isCallStmt var then [] else [var]
  | _ => []

def shared (calls : List Call) : List Nat := calls.flatMap (L.sharedVar ir)

variable {ir L}

theorem sharedVar_public {c : Call} {var : Nat} (h : var ∈ L.sharedVar ir c) :
    L.private_memories var = false := by
  unfold sharedVar at h
  split at h
  · split at h
    · cases h
    case isFalse hnot =>
      rw [List.mem_singleton.mp h]
      exact (Bool.or_eq_false_iff.mp (Bool.eq_false_iff.mpr hnot)).1
  · cases h

theorem shared_public {calls : List Call} {var : Nat} (h : var ∈ L.shared ir calls) :
    L.private_memories var = false := by
  obtain ⟨c, -, hc⟩ := List.mem_flatMap.mp h
  exact sharedVar_public hc

theorem le_next (h0 : 0 < L.alignment) (address : Nat) (c : Call) :
    address ≤ L.next ir address c := by
  cases c with
  | add_internal_variable f v =>
    dsimp only [next]
    split
    · exact le_rfl
    · have h1 : address ≤ roundUp address (ir.get_var_alignment v) :=
        le_roundUp (ir.get_var_alignment_pos v)
      have h2 : roundUp address (ir.get_var_alignment v) + ir.size v ≤
          roundUp (roundUp address (ir.get_var_alignment v) + ir.size v) L.alignment :=
            le_roundUp h0
      omega
  | add_parameter f v is_last =>
    have h1 : address + ir.size v ≤ roundUp (address + ir.size v) 16 := le_roundUp (by decide)
    have h2 : roundUp (address + ir.size v) 16 ≤
        roundUp (roundUp (address + ir.size v) 16) L.alignment := le_roundUp h0
    dsimp only [next]
    split <;> omega
  | reserve_internal_space space =>
    have h : address + space ≤ roundUp (address + space) L.alignment := le_roundUp h0
    dsimp only [next]
    omega
  | add_external_variable v => exact le_rfl
  | reserve_space space => exact le_rfl

theorem le_last (h0 : 0 < L.alignment) (address : Nat) (calls : List Call) :
    address ≤ L.last ir address calls := by
  induction calls generalizing address with
  | nil => exact le_rfl
  | cons c calls ih => exact (le_next h0 address c).trans (ih (L.next ir address c))

theorem le_range {address : Nat} {c : Call} {r : Nat × Nat} (h : r ∈ L.range ir address c) :
    address ≤ r.1 := by
  cases c with
  | add_internal_variable f v =>
    unfold range at h
    dsimp only at h
    split at h
    · cases h
    · cases h
      exact le_roundUp (ir.get_var_alignment_pos v)
  | add_parameter f v is_last =>
    cases h
    exact le_rfl
  | _ => cases h

/-- What is taken up lies behind the address. -/
theorem le_ranges (h0 : 0 < L.alignment) {address : Nat} {calls : List Call} {r : Nat × Nat}
    (h : r ∈ L.ranges ir address calls) : address ≤ r.1 := by
  induction calls generalizing address with
  | nil => cases h
  | cons c calls ih =>
    rcases List.mem_append.mp h with h | h
    · exact le_range (Option.mem_toList.mp h)
    · exact (le_next h0 address c).trans (ih h)

end Layout

/-! ## What a call does -/

namespace Memory

variable {ir : IrManager} {L : Layout} {m m' : Memory}

/-- A memory object whose addresses follow a layout. -/
structure HasLayout (ir : IrManager) (L : Layout) (m : Memory) : Prop where
  private_memories : m.private_memories = L.private_memories
  alignment : m.internal_base_address_alignment = L.alignment
  parameter_alignment : m.parameter_alignment = 16
  alignment_pos : 0 < L.alignment
  /-- Call sites are kept elsewhere. -/
  in_vars_kind : ∀ var, var ∈ m.in_vars → ir.isCallStmt var = false

/-- The variables of a memory object and those of a list. -/
def Adds (L : Layout) (m : Memory) (vars : List Nat) (m' : Memory) : Prop :=
  ∀ var, L.private_memories var = false → (var ∈ m'.in_vars ↔ var ∈ m.in_vars ∨ var ∈ vars)

/-- No variable of a list has an address or stands in it twice. -/
def Free (m : Memory) (vars : List Nat) : Prop := vars.Nodup ∧ ∀ var ∈ vars, var ∉ m.in_vars

instance (m : Memory) (vars : List Nat) : Decidable (m.Free vars) :=
    inferInstanceAs (Decidable (_ ∧ _))

theorem Adds.free_append {vars vars' : List Nat} (h : Adds L m vars m')
    (hshared : ∀ var ∈ vars', L.private_memories var = false) :
    m.Free (vars ++ vars') ↔ m.Free vars ∧ m'.Free vars' := by
  unfold Free
  rw [List.nodup_append']
  constructor
  · rintro ⟨⟨h1, h2, hdisjoint⟩, hfree⟩
    refine ⟨⟨h1, fun var hvar => hfree var (List.mem_append_left _ hvar)⟩, h2, fun var hvar => ?_⟩
    rw [h var (hshared var hvar)]
    rintro (hold | hnew)
    · exact hfree var (List.mem_append_right _ hvar) hold
    · exact hdisjoint hnew hvar
  · rintro ⟨⟨h1, hfree⟩, h2, hfree'⟩
    refine ⟨⟨h1, h2, fun var hvar hvar' => ?_⟩, fun var hvar => ?_⟩
    · exact hfree' var hvar' ((h var (hshared var hvar')).mpr (Or.inr hvar))
    · rcases List.mem_append.mp hvar with hvar | hvar
      · exact hfree var hvar
      · exact fun hold => hfree' var hvar ((h var (hshared var hvar)).mpr (Or.inl hold))

theorem map_returns_iff {α β : Type} {x : Except Error α} {f : α → β} :
    (∃ r, x.map f = .ok r) ↔ ∃ r, x = .ok r := by
  cases x with
  | error e => exact iff_of_false (fun ⟨_, h⟩ => nomatch h) fun ⟨_, h⟩ => nomatch h
  | ok r => exact iff_of_true ⟨f r, rfl⟩ ⟨r, rfl⟩

/-- Two steps that return where their variables are free, return where all of them are. -/
theorem bind_returns_iff {α β : Type} {x : Except Error α} {y : α → Except Error β}
    (after : α → Memory)
    {vars vars' : List Nat} (hx : (∃ s, x = .ok s) ↔ m.Free vars)
    (hadds : ∀ s, x = .ok s → Adds L m vars (after s))
    (hy : ∀ s, x = .ok s → ((∃ r, y s = .ok r) ↔ (after s).Free vars'))
    (hshared : ∀ var ∈ vars', L.private_memories var = false) :
    (∃ r, x.bind y = .ok r) ↔ m.Free (vars ++ vars') := by
  cases x with
  | error e =>
    refine iff_of_false (fun ⟨_, h⟩ => nomatch h) fun hfree => ?_
    obtain ⟨s, hs⟩ := hx.mpr ⟨(List.nodup_append'.mp hfree.1).1, fun var hvar =>
      hfree.2 var (List.mem_append_left _ hvar)⟩
    cases hs
  | ok s =>
    rw [(hadds s rfl).free_append hshared, ← hy s rfl, ← hx]
    exact (and_iff_right ⟨s, rfl⟩).symm

/-- What `add_internal_symbol` does besides the addresses. -/
structure SymbolAdded (ir : IrManager) (funID_scope var : Nat) (m m' : Memory) : Prop where
  private_memories : m'.private_memories = m.private_memories
  alignment : m'.internal_base_address_alignment = m.internal_base_address_alignment
  parameter_alignment : m'.parameter_alignment = m.parameter_alignment
  in_vars : ∀ v, v ∈ m'.in_vars ↔ v ∈ m.in_vars ∨ v = var ∧ ir.isCallStmt var = false
  next_of_private : m.private_memories var = true → m'.next_base_address = m.next_base_address
  start_of_public : m.private_memories var = false →
    m'.internal_base_address_start = m.internal_base_address_start

theorem mem_in_vars_insertInternal (funID_scope : Nat) {var v : Nat} {m_sym : memory_symbol} :
    v ∈ (m.insertInternal ir funID_scope var m_sym).in_vars ↔
      v ∈ m.in_vars ∨ v = var ∧ ir.isCallStmt var = false := by
  dsimp only [insertInternal]
  cases hcall : ir.isCallStmt var with
  | true => simp
  | false => simp [AList.mem_insert, or_comm]

theorem add_internal_symbol_spec {funID_scope var : Nat} {m_sym : memory_symbol}
    (h : m.add_internal_symbol ir funID_scope var m_sym = .ok m') :
    (var ∉ m.in_vars ∨ m.private_memories var = true) ∧ SymbolAdded ir funID_scope var m m' := by
  obtain ⟨hassert, h⟩ := throwAssert_bind_ok h
  refine ⟨hassert.imp_left AList.lookup_eq_none.mp, ?_⟩
  dsimp only at h
  split at h
  case isTrue hprivate =>
    rw [← Except.ok.inj h]
    exact ⟨rfl, rfl, rfl, fun v => mem_in_vars_insertInternal funID_scope, fun _ => rfl,
      fun _ => rfl⟩
  case isFalse hpublic =>
    rw [← Except.ok.inj h]
    exact ⟨rfl, rfl, rfl, fun v => mem_in_vars_insertInternal funID_scope,
      fun hprivate => absurd hprivate hpublic, fun _ => rfl⟩

theorem add_internal_symbol_returns {funID_scope var : Nat} {m_sym : memory_symbol}
    (h : var ∉ m.in_vars ∨ m.private_memories var = true) :
    ∃ m', m.add_internal_symbol ir funID_scope var m_sym = .ok m' := by
  have hassert : m.in_vars.lookup var = none ∨ m.is_private_memory var = true :=
    h.imp_left AList.lookup_eq_none.mpr
  unfold add_internal_symbol
  rw [throwAssert_of hassert, ok_bind]
  dsimp only
  split <;> exact ⟨_, rfl⟩

/-- A variable with an address of its own must be new. -/
theorem add_internal_variable_spec {funID_scope var : Nat}
    (h : m.add_internal_variable ir funID_scope var = .ok m') :
    (var ∉ m.in_vars ∨ m.private_memories var = true) ∧ SymbolAdded ir funID_scope var m m' := by
  unfold add_internal_variable at h
  split at h
  · exact add_internal_symbol_spec h
  · split at h
    case isTrue hprivate =>
      split at h
      · obtain ⟨hassert, hadded⟩ := add_internal_symbol_spec h
        refine ⟨hassert, hadded.1, hadded.2, hadded.3, hadded.4, hadded.5, fun hpublic => ?_⟩
        change m.private_memories var = true at hprivate
        rw [hpublic] at hprivate
        cases hprivate
      · exact add_internal_symbol_spec h
    case isFalse hpublic =>
      obtain ⟨hassert, hadded⟩ := add_internal_symbol_spec h
      exact ⟨hassert, hadded.1, hadded.2, hadded.3, hadded.4,
        fun hprivate => absurd hprivate hpublic, hadded.6⟩

theorem add_internal_variable_returns {funID_scope var : Nat}
    (h : var ∉ m.in_vars ∨ m.private_memories var = true) :
    ∃ m', m.add_internal_variable ir funID_scope var = .ok m' := by
  unfold add_internal_variable
  split
  · exact add_internal_symbol_returns h
  · split
    · split
      · exact add_internal_symbol_returns h
      · exact add_internal_symbol_returns h
    · exact add_internal_symbol_returns h

/-- A parameter is kept at the running address, which then is behind it. -/
theorem add_parameter_form (ir : IrManager) (m : Memory) (funID_scope var : Nat) (is_last : Bool) :
    ∃ next total, m.add_parameter ir funID_scope var is_last = { m with
        params := m.params.insert var ⟨var, m.next_base_address⟩
        parameter := m.parameter.insert (funID_scope, var) ⟨var, m.next_base_address⟩
        next_base_address := next
        total_amount_of_parameter_memory := total } ∧
      (m.HasLayout ir L →
        L.next ir m.next_base_address (.add_parameter funID_scope var is_last) < 2 ^ 64 →
          next = L.next ir m.next_base_address (.add_parameter funID_scope var is_last)) := by
  have hbehind : m.HasLayout ir L → roundUp (m.next_base_address + ir.size var) 16 < 2 ^ 64 →
      max (compute_next_base_address ir m.next_base_address var m.parameter_alignment)
        m.next_base_address = roundUp (m.next_base_address + ir.size var) 16 := by
    intro hm hfits
    have hle : m.next_base_address + ir.size var ≤ roundUp (m.next_base_address + ir.size var) 16 :=
      le_roundUp (by decide)
    rw [hm.parameter_alignment, compute_next_base_address_eq (by decide) hfits,
      max_eq_left (by omega)]
  unfold add_parameter add_parameter_symbol
  dsimp only [Layout.next]
  split
  · refine ⟨_, _, rfl, fun hm hfits => ?_⟩
    -- the address is aligned once more behind the last parameter
    have hle : roundUp (m.next_base_address + ir.size var) 16 ≤
        roundUp (roundUp (m.next_base_address + ir.size var) 16) L.alignment :=
      le_roundUp hm.alignment_pos
    rw [hbehind hm (by omega), hm.alignment]
    exact align_eq hfits
  · exact ⟨_, _, rfl, hbehind⟩

/-! ## One call -/

/-- A call returns where its variable is new. -/
theorem call_returns_iff (hm : m.HasLayout ir L) (c : Call) :
    (∃ m', m.call ir c = .ok m') ↔ m.Free (L.sharedVar ir c) := by
  cases c with
  | add_internal_variable f v =>
    have hiff : m.Free (L.sharedVar ir (.add_internal_variable f v)) ↔
        v ∉ m.in_vars ∨ m.private_memories v = true := by
      rw [hm.private_memories]
      unfold Free Layout.sharedVar
      dsimp only
      by_cases hskip : (L.private_memories v || ir.isCallStmt v) = true
      · rw [if_pos hskip]
        apply iff_of_true ⟨List.nodup_nil, fun _ h => nomatch h⟩
        rcases Bool.or_eq_true_iff.mp hskip with hprivate | hcall
        · exact Or.inr hprivate
        · left
          intro hmem
          rw [hm.in_vars_kind v hmem] at hcall
          cases hcall
      · rw [if_neg hskip]
        have hpublic := (Bool.or_eq_false_iff.mp (Bool.eq_false_iff.mpr hskip)).1
        simp [hpublic]
    rw [hiff]
    exact ⟨fun ⟨_, h⟩ => (add_internal_variable_spec h).1, add_internal_variable_returns⟩
  | _ => exact iff_of_true ⟨_, rfl⟩ ⟨List.nodup_nil, fun _ h => nomatch h⟩

/-- The variables after a call. -/
theorem call_adds {c : Call} (h : m.call ir c = .ok m') :
    Adds L m (L.sharedVar ir c) m' := by
  intro var hpublic
  cases c with
  | add_internal_variable f v =>
    rw [(add_internal_variable_spec h).2.in_vars var]
    apply or_congr_right
    unfold Layout.sharedVar
    dsimp only
    constructor
    · rintro ⟨rfl, hcall⟩
      rw [hpublic, hcall]
      exact List.mem_singleton_self var
    · intro hmem
      split at hmem
      · cases hmem
      case isFalse hnot =>
        exact ⟨List.mem_singleton.mp hmem, (Bool.or_eq_false_iff.mp (Bool.eq_false_iff.mpr hnot)).2⟩
  | add_parameter f v is_last =>
    cases h
    obtain ⟨next, total, heq, -⟩ := add_parameter_form (L := L) ir m f v is_last
    rw [heq]
    exact (or_iff_left List.not_mem_nil).symm
  | _ =>
    cases h
    exact (or_iff_left List.not_mem_nil).symm

/-- A call keeps what the addresses depend on. -/
theorem HasLayout.call (hm : m.HasLayout ir L) {c : Call} (h : m.call ir c = .ok m') :
    m'.HasLayout ir L := by
  cases c with
  | add_internal_variable f v =>
    obtain ⟨-, hadded⟩ := add_internal_variable_spec h
    refine ⟨hadded.private_memories.trans hm.private_memories, hadded.alignment.trans hm.alignment,
      hadded.parameter_alignment.trans hm.parameter_alignment, hm.alignment_pos, fun var hvar => ?_⟩
    rcases (hadded.in_vars var).mp hvar with hold | ⟨rfl, hcall⟩
    · exact hm.in_vars_kind var hold
    · exact hcall
  | add_parameter f v is_last =>
    cases h
    obtain ⟨next, total, heq, -⟩ := add_parameter_form (L := L) ir m f v is_last
    rw [heq]
    exact ⟨hm.1, hm.2, hm.3, hm.4, hm.5⟩
  | _ =>
    cases h
    exact ⟨hm.1, hm.2, hm.3, hm.4, hm.5⟩

/-- The running address after a call. -/
theorem call_next (hm : m.HasLayout ir L) {c : Call} (h : m.call ir c = .ok m')
    (hfits : L.next ir m.next_base_address c < 2 ^ 64) :
    m'.next_base_address = L.next ir m.next_base_address c := by
  have h0 : 0 < m.internal_base_address_alignment := hm.alignment ▸ hm.alignment_pos
  cases c with
  | add_internal_variable f v =>
    unfold Layout.next at hfits ⊢
    dsimp only at hfits ⊢
    split at hfits
    case isTrue hprivate =>
      rw [← hm.private_memories] at hprivate
      rw [(add_internal_variable_spec h).2.next_of_private hprivate, ← hm.private_memories,
        if_pos hprivate]
    case isFalse hpublic =>
      rw [if_neg hpublic, ← hm.alignment]
      rw [← hm.private_memories] at hpublic
      rw [← hm.alignment] at hfits
      have hp : m.is_private_memory v = false := Bool.eq_false_iff.mpr hpublic
      have hcall : m.Fits ir (.add_internal_variable f v) := by
        unfold Fits
        dsimp only
        rw [if_neg (by rw [hp]; exact Bool.false_ne_true)]
        exact hfits
      rw [(add_internal_variable_public hp h0 hcall h).2]
      rfl
  | add_parameter f v is_last =>
    cases h
    obtain ⟨next, total, heq, hnext⟩ := add_parameter_form ir m f v is_last
    rw [heq]
    exact hnext hm hfits
  | reserve_internal_space space =>
    cases h
    dsimp only [Layout.next] at hfits ⊢
    have hle : m.next_base_address + space ≤ roundUp (m.next_base_address + space) L.alignment :=
      le_roundUp hm.alignment_pos
    have hword : word (m.next_base_address + space) = m.next_base_address + space :=
      Nat.mod_eq_of_lt (by omega)
    dsimp only [reserve_internal_space]
    rw [hword, hm.alignment]
    exact align_eq hfits
  | add_external_variable v =>
    cases h
    rfl
  | reserve_space space =>
    cases h
    rfl

theorem taken_eq (hm : m.HasLayout ir L) {c : Call} (h : m.call ir c = .ok m')
    (hfits : L.next ir m.next_base_address c < 2 ^ 64) :
    m.taken ir c m' = L.range ir m.next_base_address c := by
  cases c with
  | add_internal_variable f v =>
    unfold taken Layout.range
    dsimp only
    rw [← hm.private_memories]
    change (if m.is_private_memory v = true then _ else _) = if m.is_private_memory v = true then _ else _
    cases hp : m.is_private_memory v with
    | true => rfl
    | false =>
      have hcall : m.Fits ir (.add_internal_variable f v) := by
        unfold Fits
        dsimp only
        rw [if_neg (by rw [hp]; exact Bool.false_ne_true), hm.alignment]
        unfold Layout.next at hfits
        dsimp only at hfits
        rwa [if_neg (by rw [← hm.private_memories]; exact Bool.eq_false_iff.mp hp)] at hfits
      have h0 : 0 < m.internal_base_address_alignment := hm.alignment ▸ hm.alignment_pos
      rw [(add_internal_variable_public hp h0 hcall h).2]
      dsimp only [insertInternal]
      rw [AList.lookup_insert]
      rfl
  | add_parameter f v is_last =>
    cases h
    obtain ⟨next, total, heq, -⟩ := add_parameter_form (L := L) ir m f v is_last
    rw [heq]
    dsimp only [taken]
    rw [AList.lookup_insert]
    rfl
  | _ =>
    cases h
    rfl

/-! ## Calls one after the other -/

theorem allocate_cons {c : Call} {calls : List Call} {r : Memory × List (Nat × Nat)}
    (h : m.allocate ir (c :: calls) = .ok r) :
    ∃ m₁ ranges, m.call ir c = .ok m₁ ∧ m₁.allocate ir calls = .ok (r.1, ranges) ∧
      r.2 = (m.taken ir c m₁).toList ++ ranges := by
  unfold allocate at h
  cases hcall : m.call ir c with
  | error e =>
    rw [hcall] at h
    cases h
  | ok m₁ =>
    rw [hcall] at h
    cases hrest : m₁.allocate ir calls with
    | error e =>
      dsimp only [Except.bind] at h
      rw [hrest] at h
      cases h
    | ok r' =>
      dsimp only [Except.bind] at h
      rw [hrest] at h
      cases h
      exact ⟨m₁, r'.2, rfl, hrest, rfl⟩

/-- Calls return where their variables are new. -/
theorem allocate_returns_iff (hm : m.HasLayout ir L) (calls : List Call) :
    (∃ r, m.allocate ir calls = .ok r) ↔ m.Free (L.shared ir calls) := by
  induction calls generalizing m with
  | nil => exact iff_of_true ⟨_, rfl⟩ ⟨List.nodup_nil, fun _ h => nomatch h⟩
  | cons c calls ih =>
    exact bind_returns_iff id (call_returns_iff hm c) (fun _ => call_adds)
      (fun m₁ hcall => map_returns_iff.trans (ih (hm.call hcall))) fun _ => Layout.shared_public

theorem HasLayout.allocate (hm : m.HasLayout ir L) {calls : List Call}
    {r : Memory × List (Nat × Nat)}
    (h : m.allocate ir calls = .ok r) : r.1.HasLayout ir L ∧ Adds L m (L.shared ir calls) r.1 := by
  induction calls generalizing m r with
  | nil =>
    cases h
    exact ⟨hm, fun _ _ => (or_iff_left List.not_mem_nil).symm⟩
  | cons c calls ih =>
    obtain ⟨m₁, ranges, hcall, hrest, -⟩ := allocate_cons h
    obtain ⟨hlayout, hadds⟩ := ih (hm.call hcall) hrest
    refine ⟨hlayout, fun var hpublic => ?_⟩
    rw [hadds var hpublic, call_adds hcall var hpublic, or_assoc, ← List.mem_append]
    rfl

/-- Without private variables the start stays. -/
theorem allocate_start {calls : List Call} {r : Memory × List (Nat × Nat)}
    (h : m.allocate ir calls = .ok r) (hpublic : ∀ var, L.private_memories var = false)
    (hm : m.HasLayout ir L) : r.1.internal_base_address_start = m.internal_base_address_start := by
  induction calls generalizing m r with
  | nil =>
    cases h
    rfl
  | cons c calls ih =>
    obtain ⟨m₁, ranges, hcall, hrest, -⟩ := allocate_cons h
    refine (ih hrest (hm.call hcall)).trans ?_
    cases c with
    | add_internal_variable f v =>
      apply (add_internal_variable_spec hcall).2.start_of_public
      rw [hm.private_memories]
      exact hpublic v
    | add_parameter f v is_last =>
      cases hcall
      obtain ⟨next, total, heq, -⟩ := add_parameter_form (L := L) ir m f v is_last
      rw [heq]
    | _ =>
      cases hcall
      rfl

/-- Calls follow the layout. -/
theorem allocate_spec (hm : m.HasLayout ir L) {calls : List Call} {r : Memory × List (Nat × Nat)}
    (h : m.allocate ir calls = .ok r) (hfits : L.last ir m.next_base_address calls < 2 ^ 64) :
    r.1.next_base_address = L.last ir m.next_base_address calls ∧
      r.2 = L.ranges ir m.next_base_address calls := by
  induction calls generalizing m r with
  | nil =>
    cases h
    exact ⟨rfl, rfl⟩
  | cons c calls ih =>
    obtain ⟨m₁, ranges, hcall, hrest, hranges⟩ := allocate_cons h
    have hfirst : L.next ir m.next_base_address c < 2 ^ 64 :=
      (Layout.le_last hm.alignment_pos (L.next ir m.next_base_address c) calls).trans_lt hfits
    have hnext := call_next hm hcall hfirst
    obtain ⟨hlast, hrest'⟩ := ih (hm.call hcall) hrest (by rw [hnext]; exact hfits)
    rw [hnext] at hlast hrest'
    refine ⟨hlast, ?_⟩
    rw [hranges, taken_eq hm hcall hfirst, show ranges = _ from hrest']
    rfl

end Memory

end HLS
end Bambu
