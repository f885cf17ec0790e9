/-
  Bambu.HLS.MemoryMap

  The memory map: after every run of calls nothing overlaps (`Memory.memory_map_no_overlaps`).

  A call places at most one object, at the running address or above it, and moves the running
  address behind what it has placed, so that the objects before it are not met (`Placed.insert`).
-/

import Bambu.HLS.Memory

namespace Bambu
namespace HLS

/-! ## Placement -/

/-- Objects with their addresses and extents below a bound, no two of which overlap. -/
structure Placed {O : Type} (address : O → Option Nat) (extent : O → Nat) (top : Nat) : Prop where
  below : ∀ o a, address o = some a → a + extent o ≤ top
  apart : ∀ o o' a a', o ≠ o' → address o = some a → address o' = some a' →
    a + extent o ≤ a' ∨ a' + extent o' ≤ a

namespace Placed

variable {O : Type} {address address' : O → Option Nat} {extent extent' : O → Nat} {top top' : Nat}

theorem mono (h : Placed address extent top) (htop : top ≤ top') : Placed address extent top' :=
  ⟨fun o a ha => (h.below o a ha).trans htop, h.apart⟩

/-- Only the extents of what has an address matter. -/
theorem congr (h : Placed address extent top) (haddress : ∀ o, address' o = address o)
    (hextent : ∀ o a, address o = some a → extent' o = extent o) : Placed address' extent' top := by
  refine ⟨fun o a ha => ?_, fun o o' a a' hne ha ha' => ?_⟩
  · rw [haddress] at ha
    rw [hextent o a ha]
    exact h.below o a ha
  · rw [haddress] at ha ha'
    rw [hextent o a ha, hextent o' a' ha']
    exact h.apart o o' a a' hne ha ha'

/-- What is placed at the bound or above it does not meet what is there. -/
theorem insert (h : Placed address extent top) {o₀ : O} {a₀ : Nat} (hnew : address' o₀ = some a₀)
    (haddress : ∀ o, o ≠ o₀ → address' o = address o)
    (hextent : ∀ o a, o ≠ o₀ → address o = some a → extent' o = extent o)
    (hlo : top ≤ a₀) (hhi : a₀ + extent' o₀ ≤ top') : Placed address' extent' top' := by
  have hbefore : ∀ o a, o ≠ o₀ → address' o = some a → a + extent' o ≤ a₀ := by
    intro o a hne ha
    rw [haddress o hne] at ha
    rw [hextent o a hne ha]
    exact (h.below o a ha).trans hlo
  refine ⟨fun o a ha => ?_, fun o o' a a' hne ha ha' => ?_⟩
  · by_cases ho : o = o₀
    · rw [ho, hnew] at ha
      cases ha
      rw [ho]
      exact hhi
    · have := hbefore o a ho ha
      omega
  · by_cases ho : o = o₀
    · rw [ho, hnew] at ha
      cases ha
      exact Or.inr (hbefore o' a' (fun h => hne (ho.trans h.symm)) ha')
    by_cases ho' : o' = o₀
    · rw [ho', hnew] at ha'
      cases ha'
      exact Or.inl (hbefore o a ho ha)
    · rw [haddress o ho] at ha
      rw [haddress o' ho'] at ha'
      rw [hextent o a ho ha, hextent o' a' ho' ha']
      exact h.apart o o' a a' hne ha ha'

end Placed

namespace Memory

/-! ## The memory map -/

/-- What is allocated at the internal addresses. -/
inductive Object where
  | in_var (var : Nat)
  | callSite (var : Nat)
  | parameter (funID_scope var : Nat)
  deriving DecidableEq

def Object.var : Object → Nat
  | .in_var var | .callSite var | .parameter _ var => var

/-- The object that an internal symbol stands for. -/
def internalObject (ir : IrManager) (var : Nat) : Object :=
  if ir.isCallStmt var then .callSite var else .in_var var

/-- The address of an object, unless it is private. -/
def mapped (m : Memory) : Object → Option Nat
  | .in_var var =>
    bif m.is_private_memory var then none else (m.in_vars.lookup var).map memory_symbol.address
  | .callSite var =>
    bif m.is_private_memory var then none else (m.callSites.lookup var).map memory_symbol.address
  | .parameter funID_scope var => (m.parameter.lookup (funID_scope, var)).map memory_symbol.address

/-- What an object keeps from others: a variable its range, a parameter its size. -/
def extent (ir : IrManager) (m : Memory) : Object → Nat
  | .in_var var | .callSite var => (m.rangesize.lookup var).getD 0
  | .parameter _ var => ir.size var

def externalAddress (m : Memory) (var : Nat) : Option Nat :=
  (m.external.lookup var).map memory_symbol.address

/-- What holds of the addresses after every call. -/
structure Mapped (ir : IrManager) (m : Memory) : Prop where
  alignment_pos : 0 < m.internal_base_address_alignment
  external_alignment_pos : 0 < m.external_base_address_alignment
  parameter_alignment_pos : 0 < m.parameter_alignment
  /-- A node is a variable or a call site. -/
  in_vars_kind : ∀ var, var ∈ m.in_vars → ir.isCallStmt var = false
  callSites_kind : ∀ var, var ∈ m.callSites → ir.isCallStmt var = true
  placed : Placed m.mapped (m.extent ir) m.next_base_address
  /-- The range of a variable covers it. -/
  range : ∀ var a, m.mapped (internalObject ir var) = some a →
    ∃ size, m.rangesize.lookup var = some size ∧ ir.size var ≤ size
  placed_external : Placed m.externalAddress ir.size m.next_off_base_address
  aligned : ∀ funID_scope var s, m.internal.lookup (funID_scope, var) = some s →
    ir.get_var_alignment var ∣ s.address
  in_vars_aligned : ∀ var s, m.in_vars.lookup var = some s → ir.get_var_alignment var ∣ s.address
  aligned_external : ∀ var s, m.external.lookup var = some s → ir.get_var_alignment var ∣ s.address
  /-- A variable has one symbol in all functions. -/
  internal_in_vars : ∀ funID_scope var s, m.internal.lookup (funID_scope, var) = some s →
    ir.isCallStmt var = false → m.in_vars.lookup var = some s

section Steps

variable {ir : IrManager} {m m' : Memory} {funID_scope var : Nat}

/-- Symbols keep an alignment when one more has it. -/
theorem aligned_insert {K : Type} [DecidableEq K] (f : K → Nat)
    {l : AList fun _ : K => memory_symbol}
    (h : ∀ k s, l.lookup k = some s → f k ∣ s.address) {k₀ : K} {s₀ : memory_symbol}
    (h₀ : f k₀ ∣ s₀.address) (k : K) (s : memory_symbol)
    (hs : (l.insert k₀ s₀).lookup k = some s) : f k ∣ s.address := by
  by_cases hk : k = k₀
  · rw [hk, AList.lookup_insert] at hs
    cases hs
    rw [hk]
    exact h₀
  · rw [AList.lookup_insert_ne hk] at hs
    exact h k s hs

/-- A new symbol is kept where the symbols of its kind are. -/
theorem Mapped.kinds (hm : m.Mapped ir) (funID_scope var : Nat) (m_sym : memory_symbol) :
    (∀ v, v ∈ (m.insertInternal ir funID_scope var m_sym).in_vars → ir.isCallStmt v = false) ∧
      ∀ v, v ∈ (m.insertInternal ir funID_scope var m_sym).callSites → ir.isCallStmt v = true := by
  dsimp only [insertInternal]
  cases hcall : ir.isCallStmt var with
  | true =>
    refine ⟨hm.in_vars_kind, fun v hv => ?_⟩
    rcases (AList.mem_insert _).mp hv with rfl | hv
    · exact hcall
    · exact hm.callSites_kind v hv
  | false =>
    refine ⟨fun v hv => ?_, hm.callSites_kind⟩
    rcases (AList.mem_insert _).mp hv with rfl | hv
    · exact hcall
    · exact hm.in_vars_kind v hv

theorem Mapped.internal_symbols (hm : m.Mapped ir) (funID_scope : Nat) {m_sym : memory_symbol}
    (haligned : ir.get_var_alignment var ∣ m_sym.address)
    (hsame : ∀ s, m.in_vars.lookup var = some s → s = m_sym) :
    (∀ f v s, (m.insertInternal ir funID_scope var m_sym).internal.lookup (f, v) = some s →
        ir.get_var_alignment v ∣ s.address) ∧
      (∀ v s, (m.insertInternal ir funID_scope var m_sym).in_vars.lookup v = some s →
        ir.get_var_alignment v ∣ s.address) ∧
      ∀ f v s, (m.insertInternal ir funID_scope var m_sym).internal.lookup (f, v) = some s →
        ir.isCallStmt v = false →
          (m.insertInternal ir funID_scope var m_sym).in_vars.lookup v = some s := by
  refine ⟨fun f v s hs => ?_, fun v s hs => ?_, fun f v s hs hcall => ?_⟩
  · exact aligned_insert (fun k : Nat × Nat => ir.get_var_alignment k.2)
      (fun k s hk => hm.aligned k.1 k.2 s hk) haligned (f, v) s hs
  · dsimp only [insertInternal] at hs
    split at hs
    · exact hm.in_vars_aligned v s hs
    · exact aligned_insert ir.get_var_alignment hm.in_vars_aligned haligned v s hs
  · dsimp only [insertInternal] at hs ⊢
    by_cases hv : v = var
    · rw [hv] at hcall ⊢
      rw [if_neg (by rw [hcall]; exact Bool.false_ne_true), AList.lookup_insert]
      by_cases hk : (f, v) = (funID_scope, var)
      · rw [hk, AList.lookup_insert] at hs
        exact hs
      · rw [AList.lookup_insert_ne hk, hv] at hs
        rw [hsame s (hm.internal_in_vars f var s hs hcall)]
    · have hk : (f, v) ≠ (funID_scope, var) := fun h => hv (Prod.mk.inj h).2
      rw [AList.lookup_insert_ne hk] at hs
      have hold := hm.internal_in_vars f v s hs hcall
      split
      · exact hold
      · rwa [AList.lookup_insert_ne hv]

theorem internalObject_ne {v : Nat} (h : v ≠ var) : internalObject ir v ≠ internalObject ir var := by
  unfold internalObject
  split
  · split
    · exact fun heq => h (Object.callSite.inj heq)
    · exact Object.noConfusion
  · split
    · exact Object.noConfusion
    · exact fun heq => h (Object.in_var.inj heq)

theorem mapped_insertInternal {m_sym : memory_symbol} {o : Object}
    (ho : o ≠ internalObject ir var) :
    (m.insertInternal ir funID_scope var m_sym).mapped o = m.mapped o := by
  unfold internalObject at ho
  cases o with
  | parameter f v => rfl
  | in_var v =>
    dsimp only [mapped, insertInternal, is_private_memory]
    split at ho
    case isTrue hcall => rw [if_pos hcall]
    case isFalse hcall =>
      have hne : v ≠ var := fun h => ho (h ▸ rfl)
      rw [if_neg hcall, AList.lookup_insert_ne hne]
  | callSite v =>
    dsimp only [mapped, insertInternal, is_private_memory]
    split at ho
    case isTrue hcall =>
      have hne : v ≠ var := fun h => ho (h ▸ rfl)
      rw [if_pos hcall, AList.lookup_insert_ne hne]
    case isFalse hcall => rw [if_neg hcall]

theorem mapped_internalObject {m_sym : memory_symbol} :
    (m.insertInternal ir funID_scope var m_sym).mapped (internalObject ir var) =
      bif m.is_private_memory var then none else some m_sym.address := by
  unfold internalObject
  split
  case isTrue hcall =>
    dsimp only [mapped, insertInternal, is_private_memory]
    rw [if_pos hcall, AList.lookup_insert]
    rfl
  case isFalse hcall =>
    dsimp only [mapped, insertInternal, is_private_memory]
    rw [if_neg hcall, AList.lookup_insert]
    rfl

theorem of_mapped {p : Bool} {x : Option Nat} {a : Nat} (h : (bif p then none else x) = some a) :
    x = some a := by
  cases p with
  | true => cases h
  | false => exact h

/-- Another object with an address is of another variable, or a parameter, and keeps its extent. -/
theorem Mapped.extent_eq (hm : m.Mapped ir) {o : Object} {a : Nat} (ha : m.mapped o = some a)
    (ho : o ≠ internalObject ir var) {size : Nat}
    (hrange : m'.rangesize = m.rangesize.insert var size) : m'.extent ir o = m.extent ir o := by
  unfold internalObject at ho
  cases o with
  | parameter f v => rfl
  | in_var v =>
    have hne : v ≠ var := by
      rintro rfl
      have hmem : v ∈ m.in_vars := by
        obtain ⟨s, hs, -⟩ := Option.map_eq_some_iff.mp (of_mapped ha)
        exact AList.lookup_isSome.mp (hs ▸ rfl)
      rw [hm.in_vars_kind v hmem] at ho
      exact ho rfl
    dsimp only [extent]
    rw [hrange, AList.lookup_insert_ne hne]
  | callSite v =>
    have hne : v ≠ var := by
      rintro rfl
      have hmem : v ∈ m.callSites := by
        obtain ⟨s, hs, -⟩ := Option.map_eq_some_iff.mp (of_mapped ha)
        exact AList.lookup_isSome.mp (hs ▸ rfl)
      rw [hm.callSites_kind v hmem] at ho
      exact ho rfl
    dsimp only [extent]
    rw [hrange, AList.lookup_insert_ne hne]

/-- The variable of a range has it as its extent. -/
theorem extent_internalObject {size : Nat} (hrange : m'.rangesize.lookup var = some size) :
    m'.extent ir (internalObject ir var) = size := by
  unfold internalObject
  split
  · dsimp only [extent]
    rw [hrange]
    rfl
  · dsimp only [extent]
    rw [hrange]
    rfl

theorem Mapped.add_internal_public (hm : m.Mapped ir) (hp : m.is_private_memory var = false)
    (hfits : m.Fits ir (.add_internal_variable funID_scope var))
    (h : m.add_internal_variable ir funID_scope var = .ok m') : m'.Mapped ir := by
  obtain ⟨hnone, rfl⟩ := add_internal_variable_public hp hm.alignment_pos hfits h
  obtain ⟨a, ha⟩ : ∃ a, a = m.publicAddress ir var := ⟨_, rfl⟩
  rw [← ha]
  have hdvd : ir.get_var_alignment var ∣ a := ha ▸ dvd_roundUp _ _
  have hlo : m.next_base_address ≤ a := ha ▸ le_roundUp (ir.get_var_alignment_pos var)
  have hhi : a + ir.size var ≤ roundUp (a + ir.size var) m.internal_base_address_alignment :=
    le_roundUp hm.alignment_pos
  obtain ⟨size, hsize⟩ : ∃ size, size =
      roundUp (a + ir.size var) m.internal_base_address_alignment - a := ⟨_, rfl⟩
  rw [← hsize]
  obtain ⟨m_sym, hsym⟩ : ∃ m_sym : memory_symbol, m_sym = ⟨var, a⟩ := ⟨_, rfl⟩
  have hsym_address : m_sym.address = a := by rw [hsym]
  rw [← hsym]
  obtain ⟨haligned, hin_aligned, hinternal⟩ := hm.internal_symbols funID_scope
    (hsym_address ▸ hdvd) fun s hs => by
      rw [hnone] at hs
      cases hs
  have hnew : (m.insertInternal ir funID_scope var m_sym).mapped (internalObject ir var) = some a := by
    rw [mapped_internalObject, hp, hsym_address]
    rfl
  have hother : ∀ o, o ≠ internalObject ir var →
      (m.insertInternal ir funID_scope var m_sym).mapped o = m.mapped o := fun o ho =>
    mapped_insertInternal ho
  exact {
    alignment_pos := hm.alignment_pos
    external_alignment_pos := hm.external_alignment_pos
    parameter_alignment_pos := hm.parameter_alignment_pos
    in_vars_kind := (hm.kinds funID_scope var m_sym).1
    callSites_kind := (hm.kinds funID_scope var m_sym).2
    placed := by
      refine hm.placed.insert hnew hother (fun o b ho hb => hm.extent_eq hb ho rfl) hlo ?_
      · rw [extent_internalObject (AList.lookup_insert _)]
        show _ ≤ roundUp (a + ir.size var) m.internal_base_address_alignment
        omega
    range := by
      intro v b hv
      by_cases hvar : v = var
      · rw [hvar]
        exact ⟨size, AList.lookup_insert _, by omega⟩
      · obtain ⟨r, hr, hle⟩ := hm.range v b
          ((hother _ (internalObject_ne hvar)).symm.trans hv)
        exact ⟨r, (AList.lookup_insert_ne hvar).trans hr, hle⟩
    placed_external := hm.placed_external
    aligned := haligned
    in_vars_aligned := hin_aligned
    aligned_external := hm.aligned_external
    internal_in_vars := hinternal }

theorem Mapped.privateSymbol_spec (hm : m.Mapped ir) (var : Nat) :
    ir.get_var_alignment var ∣ (m.privateSymbol ir var).1.address ∧
      ∀ s, m.in_vars.lookup var = some s → s = (m.privateSymbol ir var).1 := by
  unfold privateSymbol
  cases hin : m.in_vars.lookup var with
  | some m_sym => exact ⟨hm.in_vars_aligned var m_sym hin, fun s hs => (Option.some.inj hs).symm⟩
  | none =>
    refine ⟨?_, fun s hs => by cases hs⟩
    dsimp only
    split
    · exact dvd_roundUp _ _
    · exact Nat.dvd_zero _

/-- A private variable has no part in the map. -/
theorem Mapped.add_internal_private (hm : m.Mapped ir) (hp : m.is_private_memory var = true)
    (hfits : m.Fits ir (.add_internal_variable funID_scope var))
    (h : m.add_internal_variable ir funID_scope var = .ok m') : m'.Mapped ir := by
  have heffect := add_internal_variable_private hp hfits h
  obtain ⟨hdvd, hsame⟩ := hm.privateSymbol_spec var
  obtain ⟨haligned, hin_aligned, hinternal⟩ := hm.internal_symbols funID_scope hdvd hsame
  rw [heffect]
  have hnone : m.mapped (internalObject ir var) = none := by
    unfold internalObject
    split
    · show (bif m.is_private_memory var then none else _) = none
      rw [hp]
      rfl
    · show (bif m.is_private_memory var then none else _) = none
      rw [hp]
      rfl
  have hmapped : ∀ o, (m.insertInternal ir funID_scope var (m.privateSymbol ir var).1).mapped o =
      m.mapped o := by
    intro o
    by_cases ho : o = internalObject ir var
    · rw [ho, hnone]
      exact mapped_internalObject.trans (by rw [hp]; rfl)
    · exact mapped_insertInternal ho
  exact {
    alignment_pos := hm.alignment_pos
    external_alignment_pos := hm.external_alignment_pos
    parameter_alignment_pos := hm.parameter_alignment_pos
    in_vars_kind := (hm.kinds funID_scope var _).1
    callSites_kind := (hm.kinds funID_scope var _).2
    placed := hm.placed.congr hmapped fun o a ha =>
      hm.extent_eq ha (fun ho => by rw [ho, hnone] at ha; cases ha) rfl
    range := by
      intro v b hv
      have hold : m.mapped (internalObject ir v) = some b := (hmapped _).symm.trans hv
      have hvar : v ≠ var := by
        rintro rfl
        rw [hnone] at hold
        cases hold
      obtain ⟨r, hr, hle⟩ := hm.range v b hold
      exact ⟨r, (AList.lookup_insert_ne hvar).trans hr, hle⟩
    placed_external := hm.placed_external
    aligned := haligned
    in_vars_aligned := hin_aligned
    aligned_external := hm.aligned_external
    internal_in_vars := hinternal }

theorem Mapped.add_external (hm : m.Mapped ir) (hfits : m.Fits ir (.add_external_variable var)) :
    (m.add_external_variable ir var).Mapped ir := by
  rw [add_external_variable_eq hm.external_alignment_pos hfits]
  obtain ⟨a, ha⟩ : ∃ a, a = roundUp m.next_off_base_address (ir.get_var_alignment var) := ⟨_, rfl⟩
  rw [← ha]
  have hlo : m.next_off_base_address ≤ a := ha ▸ le_roundUp (ir.get_var_alignment_pos var)
  have hdvd : ir.get_var_alignment var ∣ a := ha ▸ dvd_roundUp _ _
  have hplaced : Placed (fun v => ((m.external.insert var ⟨var, a⟩).lookup v).map memory_symbol.address)
      ir.size (roundUp (a + ir.size var) m.external_base_address_alignment) := by
    have hnew : ((m.external.insert var ⟨var, a⟩).lookup var).map memory_symbol.address = some a := by
      rw [AList.lookup_insert]
      rfl
    refine hm.placed_external.insert hnew (fun v hv => ?_) (fun _ _ _ _ => rfl) hlo
      (le_roundUp hm.external_alignment_pos)
    · dsimp only [externalAddress]
      rw [AList.lookup_insert_ne hv]
  exact { hm with
    placed_external := hplaced
    aligned_external := aligned_insert ir.get_var_alignment hm.aligned_external hdvd }

theorem Mapped.add_parameter (hm : m.Mapped ir) {is_last : Bool}
    (hfits : m.Fits ir (.add_parameter funID_scope var is_last)) :
    (m.add_parameter ir funID_scope var is_last).Mapped ir := by
  obtain ⟨next, total, hnext, heq⟩ :=
    add_parameter_eq hm.alignment_pos hm.parameter_alignment_pos hfits
  rw [heq]
  obtain ⟨m₁, hm₁⟩ : ∃ m₁ : Memory, m₁ = { m with
      params := m.params.insert var ⟨var, m.next_base_address⟩
      parameter := m.parameter.insert (funID_scope, var) ⟨var, m.next_base_address⟩
      next_base_address := next
      total_amount_of_parameter_memory := total } := ⟨_, rfl⟩
  have hnew : m₁.mapped (.parameter funID_scope var) = some m.next_base_address := by
    rw [hm₁]
    dsimp only [mapped]
    rw [AList.lookup_insert]
    rfl
  have hplaced : Placed m₁.mapped (m₁.extent ir) next := by
    rw [hm₁] at hnew ⊢
    refine hm.placed.insert hnew (fun o ho => ?_) (fun o a _ _ => ?_) le_rfl hnext
    · cases o with
      | in_var v => rfl
      | callSite v => rfl
      | parameter f v =>
        have hne : (f, v) ≠ (funID_scope, var) := by
          intro h
          obtain ⟨rfl, rfl⟩ := Prod.mk.inj h
          exact ho rfl
        dsimp only [mapped]
        rw [AList.lookup_insert_ne hne]
    · cases o <;> rfl
  rw [← hm₁]
  rw [hm₁] at hplaced ⊢
  have hrange : ∀ v a, Memory.mapped { m with
      params := m.params.insert var ⟨var, m.next_base_address⟩
      parameter := m.parameter.insert (funID_scope, var) ⟨var, m.next_base_address⟩
      next_base_address := next
      total_amount_of_parameter_memory := total } (internalObject ir v) = some a →
      m.mapped (internalObject ir v) = some a := by
    intro v a ha
    unfold internalObject at ha ⊢
    split at ha
    case isTrue hcall =>
      rw [if_pos hcall]
      exact ha
    case isFalse hcall =>
      rw [if_neg hcall]
      exact ha
  exact { hm with
    placed := hplaced
    range := fun v a ha => hm.range v a (hrange v a ha) }

theorem Mapped.reserve_internal (hm : m.Mapped ir) {space : Nat}
    (hfits : m.Fits ir (.reserve_internal_space space)) :
    (m.reserve_internal_space space).Mapped ir := by
  obtain ⟨next, hle, heq⟩ := reserve_internal_space_eq hm.alignment_pos hfits
  rw [heq]
  exact { hm with placed := hm.placed.mono hle }

theorem Mapped.reserve (hm : m.Mapped ir) {space : Nat}
    (hfits : m.Fits ir (.reserve_space space)) : (m.reserve_space space).Mapped ir := by
  obtain ⟨next, hle, heq⟩ := reserve_space_eq hm.alignment_pos hfits
  rw [heq]
  exact { hm with placed_external := hm.placed_external.mono hle }

/-- One call keeps the map. -/
theorem Mapped.call (hm : m.Mapped ir) {c : Call} (hfits : m.Fits ir c) (h : m.call ir c = .ok m') :
    m'.Mapped ir := by
  cases c with
  | add_internal_variable f v =>
    cases hp : m.is_private_memory v with
    | true => exact hm.add_internal_private hp hfits h
    | false => exact hm.add_internal_public hp hfits h
  | add_external_variable v =>
    cases h
    exact hm.add_external hfits
  | add_parameter f v is_last =>
    cases h
    exact hm.add_parameter hfits
  | reserve_internal_space space =>
    cases h
    exact hm.reserve_internal hfits
  | reserve_space space =>
    cases h
    exact hm.reserve hfits

end Steps

/-! ## Runs -/

/-- A memory object is reached from another one by calls that meet a condition. -/
inductive Run (ir : IrManager) (P : Memory → Call → Prop) (m₀ : Memory) : Memory → Prop where
  | refl : Run ir P m₀ m₀
  | call {m m' : Memory} {c : Call} (run : Run ir P m₀ m) (cond : P m c)
      (step : m.call ir c = .ok m') : Run ir P m₀ m'

/-- What a call preserves where it meets the condition, holds after every run. -/
theorem Run.invariant {ir : IrManager} {P : Memory → Call → Prop} {m₀ m : Memory}
    (hrun : Run ir P m₀ m)
    {Q : Memory → Prop} (hinit : Q m₀)
    (hstep : ∀ m m' c, Q m → P m c → m.call ir c = .ok m' → Q m') : Q m := by
  induction hrun with
  | refl => exact hinit
  | call _ cond step ih => exact hstep _ _ _ ih cond step

section Start

variable {ir : IrManager} {private_memories : Nat → Bool} {off_base_address max_bram : Nat}
  {null_pointer_check initial_internal_address_p : Bool} {initial_internal_address : Nat}

/-- Where nothing is allocated the addresses are arbitrary. -/
theorem mapped_of_empty {m : Memory} (h0 : 0 < m.internal_base_address_alignment)
    (h1 : 0 < m.external_base_address_alignment) (h2 : 0 < m.parameter_alignment)
    (hinternal : m.internal = ∅) (hin_vars : m.in_vars = ∅) (hcallSites : m.callSites = ∅)
    (hexternal : m.external = ∅) (hparameter : m.parameter = ∅) : m.Mapped ir := by
  have hnone : ∀ o, m.mapped o = none := by
    intro o
    cases o with
    | in_var v =>
      dsimp only [mapped]
      rw [hin_vars]
      exact Bool.cond_self _ none
    | callSite v =>
      dsimp only [mapped]
      rw [hcallSites]
      exact Bool.cond_self _ none
    | parameter f v =>
      dsimp only [mapped]
      rw [hparameter]
      rfl
  have hnone_external : ∀ v, m.externalAddress v = none := by
    intro v
    unfold externalAddress
    rw [hexternal]
    rfl
  refine ⟨h0, h1, h2, fun v hv => ?_, fun v hv => ?_, ⟨fun o a ha => ?_, fun o o' a a' _ ha => ?_⟩,
    fun v a ha => ?_, ⟨fun v a ha => ?_, fun v v' a a' _ ha => ?_⟩, fun f v s hs => ?_,
    fun v s hs => ?_, fun v s hs => ?_, fun f v s hs => ?_⟩
  · rw [hin_vars] at hv
    exact absurd hv (AList.notMem_empty v)
  · rw [hcallSites] at hv
    exact absurd hv (AList.notMem_empty v)
  · rw [hnone] at ha
    cases ha
  · rw [hnone] at ha
    cases ha
  · rw [hnone] at ha
    cases ha
  · rw [hnone_external] at ha
    cases ha
  · rw [hnone_external] at ha
    cases ha
  · rw [hinternal] at hs
    cases hs
  · rw [hin_vars] at hs
    cases hs
  · rw [hexternal] at hs
    cases hs
  · rw [hinternal] at hs
    cases hs

/-- A memory object before anything is allocated: as constructed, or with another alignment. -/
inductive Fresh (ir : IrManager) (private_memories : Nat → Bool) : Memory → Prop where
  | create {off_base_address max_bram : Nat} {null_pointer_check initial_internal_address_p : Bool}
      {initial_internal_address : Nat} (h0 : 0 < 2 * max_bram % 2 ^ 32 / 8) :
      Fresh ir private_memories (create private_memories off_base_address max_bram null_pointer_check
        initial_internal_address_p initial_internal_address)
  | aligned {off_base_address max_bram : Nat} {null_pointer_check initial_internal_address_p : Bool}
      {initial_internal_address alignment : Nat} {m : Memory} (h0 : 0 < 2 * max_bram % 2 ^ 32 / 8)
      (h : (create private_memories off_base_address max_bram null_pointer_check
        initial_internal_address_p initial_internal_address).set_internal_base_address_alignment
          alignment = .ok m) : Fresh ir private_memories m

theorem Fresh.mapped {m : Memory} (h : Fresh ir private_memories m) : m.Mapped ir := by
  cases h with
  | create h0 => exact mapped_of_empty h0 h0 (by decide : 0 < 16) rfl rfl rfl rfl rfl
  | aligned h0 h =>
    obtain ⟨hpow, h⟩ := throwAssert_bind_ok h
    rw [← Except.ok.inj h]
    exact mapped_of_empty (Nat.pos_of_ne_zero hpow.1) h0 (by decide : 0 < 16) rfl rfl rfl rfl rfl

end Start

/-! ## No overlaps -/

/-- The bytes from an address on. -/
def bytes (address size : Nat) : Set Nat := Set.Ico address (address + size)

theorem disjoint_bytes {a b s t : Nat} (h : a + s ≤ b ∨ b + t ≤ a) :
    Disjoint (bytes a s) (bytes b t) := by
  refine Set.disjoint_left.mpr fun x hx hy => ?_
  obtain ⟨h1, h2⟩ := hx
  obtain ⟨h3, h4⟩ := hy
  omega

theorem bytes_subset {a s t : Nat} (h : s ≤ t) : bytes a s ⊆ bytes a t := by
  intro x hx
  obtain ⟨h1, h2⟩ := hx
  exact ⟨h1, by omega⟩

/-- The map of what is allocated. -/
structure NoOverlaps (ir : IrManager) (m : Memory) : Prop where
  /-- Internal variables, call sites and parameters. -/
  internal_disjoint : ∀ o o' a a', o ≠ o' → m.mapped o = some a → m.mapped o' = some a' →
    Disjoint (bytes a (ir.size o.var)) (bytes a' (ir.size o'.var))
  internal_below : ∀ o a, m.mapped o = some a → a + ir.size o.var ≤ m.next_base_address
  external_disjoint : ∀ v v' a a', v ≠ v' → m.externalAddress v = some a →
    m.externalAddress v' = some a' → Disjoint (bytes a (ir.size v)) (bytes a' (ir.size v'))
  external_below : ∀ v a, m.externalAddress v = some a → a + ir.size v ≤ m.next_off_base_address
  /-- Private variables included. -/
  internal_aligned : ∀ funID_scope var s, m.internal.lookup (funID_scope, var) = some s →
    ir.get_var_alignment var ∣ s.address
  external_aligned : ∀ var s, m.external.lookup var = some s → ir.get_var_alignment var ∣ s.address
  /-- The symbol of a variable is the same in all functions. -/
  one_symbol : ∀ funID_scope var s, m.internal.lookup (funID_scope, var) = some s →
    ir.isCallStmt var = false → m.in_vars.lookup var = some s
  rangesize : ∀ var a, m.mapped (.in_var var) = some a ∨ m.mapped (.callSite var) = some a →
    ∃ size, m.get_rangesize var = .ok size ∧ bytes a (ir.size var) ⊆ bytes a size ∧
      ∀ o' a', o' ≠ internalObject ir var → m.mapped o' = some a' →
        Disjoint (bytes a size) (bytes a' (ir.size o'.var))

section Map

variable {ir : IrManager} {m : Memory} {var a : Nat}

/-- A variable with an address is not a call site, and the other way round. -/
theorem Mapped.mapped_internalObject_of (hm : m.Mapped ir)
    (h : m.mapped (.in_var var) = some a ∨ m.mapped (.callSite var) = some a) :
    m.mapped (internalObject ir var) = some a ∧ m.has_base_address var := by
  rcases h with h | h
  · obtain ⟨s, hs, -⟩ := Option.map_eq_some_iff.mp (of_mapped h)
    have hmem : var ∈ m.in_vars := AList.lookup_isSome.mp (hs ▸ rfl)
    have hobject : internalObject ir var = .in_var var := by
      unfold internalObject
      rw [hm.in_vars_kind var hmem]
      rfl
    exact ⟨hobject ▸ h, Or.inr (Or.inl hmem)⟩
  · obtain ⟨s, hs, -⟩ := Option.map_eq_some_iff.mp (of_mapped h)
    have hmem : var ∈ m.callSites := AList.lookup_isSome.mp (hs ▸ rfl)
    have hobject : internalObject ir var = .callSite var := by
      unfold internalObject
      rw [hm.callSites_kind var hmem]
      rfl
    exact ⟨hobject ▸ h, Or.inr (Or.inr (Or.inr hmem))⟩

/-- The size of an object is within its extent. -/
theorem Mapped.size_le_extent (hm : m.Mapped ir) {o : Object} (ha : m.mapped o = some a) :
    ir.size o.var ≤ m.extent ir o := by
  have hrange : ∀ v, m.mapped (.in_var v) = some a ∨ m.mapped (.callSite v) = some a →
      ir.size v ≤ (m.rangesize.lookup v).getD 0 := by
    intro v hv
    obtain ⟨size, hsize, hle⟩ := hm.range v a (hm.mapped_internalObject_of hv).1
    rw [hsize]
    exact hle
  cases o with
  | in_var v => exact hrange v (Or.inl ha)
  | callSite v => exact hrange v (Or.inr ha)
  | parameter f v => exact le_rfl

theorem Mapped.noOverlaps (hm : m.Mapped ir) : m.NoOverlaps ir where
  internal_disjoint o o' a a' hne ha ha' := by
    have h1 := hm.size_le_extent ha
    have h2 := hm.size_le_extent ha'
    apply disjoint_bytes
    rcases hm.placed.apart o o' a a' hne ha ha' with h | h
    · exact Or.inl (by omega)
    · exact Or.inr (by omega)
  internal_below o a ha := by
    have h1 := hm.size_le_extent ha
    have h2 := hm.placed.below o a ha
    omega
  external_disjoint v v' a a' hne ha ha' :=
    disjoint_bytes (hm.placed_external.apart v v' a a' hne ha ha')
  external_below := hm.placed_external.below
  internal_aligned := hm.aligned
  external_aligned := hm.aligned_external
  one_symbol := hm.internal_in_vars
  rangesize var a hvar := by
    obtain ⟨ha, hbase⟩ := hm.mapped_internalObject_of hvar
    obtain ⟨size, hsize, hle⟩ := hm.range var a ha
    refine ⟨size, ?_, bytes_subset hle, fun o' a' hne ha' => ?_⟩
    · unfold get_rangesize
      rw [throwAssert_of hbase, ok_bind, hsize]
    · have hextent : m.extent ir (internalObject ir var) = size := extent_internalObject hsize
      have h1 := hm.size_le_extent ha'
      apply disjoint_bytes
      rcases hm.placed.apart _ o' a a' (Ne.symm hne) ha ha' with h | h
      · exact Or.inl (by omega)
      · exact Or.inr (by omega)

/-- After every run of calls nothing overlaps. -/
theorem memory_map_no_overlaps {private_memories : Nat → Bool} {m₀ : Memory}
    (hfresh : Fresh ir private_memories m₀) (hrun : Run ir (Fits ir) m₀ m) : m.NoOverlaps ir :=
  (hrun.invariant hfresh.mapped fun _ _ _ hm hfits hstep => hm.call hfits hstep).noOverlaps

/-- A variable of four bytes and a parameter behind it. -/
theorem memory_map_no_overlaps_two :
    ∃ (ir : IrManager) (m₀ m : Memory), Run ir (Fits ir) m₀ m ∧
      m.mapped (.in_var 1) = some 8 ∧ m.mapped (.parameter 2 3) = some 16 ∧ m.NoOverlaps ir := by
  have hrun : ∃ m, Run ⟨fun _ => false, fun _ => 32, fun _ => some 32, 32⟩
      (Fits ⟨fun _ => false, fun _ => 32, fun _ => some 32,
          32⟩) (create (fun _ => false) 0 32 true false 0)
      m ∧ m.mapped (.in_var 1) = some 8 ∧ m.mapped (.parameter 2 3) = some 16 := by
    refine ⟨_, .call (.call .refl (c := .add_internal_variable 2 1) ?_ rfl)
      (c := .add_parameter 2 3 true) ?_ rfl, ?_, ?_⟩ <;> decide
  obtain ⟨m, hrun, h1, h2⟩ := hrun
  exact ⟨_, _, m, hrun, h1, h2, memory_map_no_overlaps (.create (by decide)) hrun⟩

end Map

end Memory

end HLS
end Bambu
