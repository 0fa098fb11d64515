import NativeExpr.Convention
import NativeExpr.Proofs.Occupancy

/-!
# The register file in use

A register file that was made for two budgets hands out registers of the two
allocation orders only, has an owner for every register in use and nothing else,
and keeps locks on registers in use. Every operation keeps this; its result says
what becomes of the owner and the locks of every register.
-/
namespace NativeExpr

namespace Convention

def budgeted (budget : ByClass Nat) : RegClass → List Reg
  | .general => generalOrder.take budget.general
  | .float => floatOrder.take budget.float

variable {budget : ByClass Nat} {c : RegClass} {r : Reg}

theorem mem_order_of_mem_budgeted (h : r ∈ budgeted budget c) :
    r ∈ generalOrder ∧ c = .general ∨ r ∈ floatOrder ∧ c = .float := by
  cases c with
  | general => exact .inl ⟨List.mem_of_mem_take h, rfl⟩
  | float => exact .inr ⟨List.mem_of_mem_take h, rfl⟩

theorem valid_of_mem_budgeted (h : r ∈ budgeted budget c) : r.Valid ∧ r.regClass = c := by
  rcases mem_order_of_mem_budgeted h with ⟨h', rfl⟩ | ⟨h', rfl⟩
  · exact (by decide : ∀ r ∈ generalOrder, r.Valid ∧ r.regClass = .general) r h'
  · exact (by decide : ∀ r ∈ floatOrder, r.Valid ∧ r.regClass = .float) r h'

theorem notMem_budgeted (hr : r ∉ generalOrder) (hr' : r ∉ floatOrder) :
    r ∉ budgeted budget c := fun h =>
  (mem_order_of_mem_budgeted h).elim (fun h => hr h.1) fun h => hr' h.1

end Convention

namespace RegisterFile

open Convention

/-- What every register file of two budgets satisfies. -/
structure Regular (budget : ByClass Nat) (f : RegisterFile) : Prop where
  owners_size : f.owners.size = tableSize
  locks_size : f.locks.size = tableSize
  order_eq : ∀ c, f.order.get c = budgeted budget c
  allocatable_iff : ∀ {r}, r.Valid →
    (f.allocatable.contains r = true ↔ r ∈ budgeted budget r.regClass)
  used_iff : ∀ {r}, r.Valid → (f.used.contains r = true ↔ f.owner r ≠ none)
  owned_mem : ∀ {r}, r.Valid → f.owner r ≠ none → r ∈ budgeted budget r.regClass
  touched_of_used : ∀ {r}, f.used.contains r = true → f.touched.contains r = true
  fixed_iff : ∀ {r}, r.Valid → (f.fixed.contains r = true ↔ 0 < f.lockCount r)
  owned_of_locked : ∀ {r}, r.Valid → 0 < f.lockCount r → f.owner r ≠ none

variable {budget : ByClass Nat} {f f' : RegisterFile} {c : RegClass} {r q : Reg} {o : Owner}

theorem sorted_budgeted (budget : ByClass Nat) :
    Sorted ⟨budgeted budget .general, budgeted budget .float⟩ := fun {c _} h => by
  cases c <;> exact valid_of_mem_budgeted h

theorem Regular.order_get (h : f.Regular budget) :
    f.order = ⟨budgeted budget .general, budgeted budget .float⟩ := by
  rw [← h.order_eq .general, ← h.order_eq .float]
  rfl

theorem Regular.sound (h : f.Regular budget) : f.Sound where
  owners_size := h.owners_size
  locks_size := h.locks_size
  sorted := h.order_get ▸ sorted_budgeted budget
  allocatable_iff := fun hr => by
    rw [h.order_eq]
    exact h.allocatable_iff hr
  used_iff := h.used_iff
  owned_mem := fun hr own => by
    rw [h.order_eq]
    exact h.owned_mem hr own
  touched_of_used := h.touched_of_used
  fixed_iff := h.fixed_iff
  owned_of_locked := h.owned_of_locked

/-- A sound register file whose orders are those of two budgets. -/
theorem Sound.regular (h : f.Sound) (order : ∀ c, f.order.get c = budgeted budget c) :
    f.Regular budget where
  owners_size := h.owners_size
  locks_size := h.locks_size
  order_eq := order
  allocatable_iff := fun hr => by
    rw [← order]
    exact h.allocatable_iff hr
  used_iff := h.used_iff
  owned_mem := fun hr own => by
    rw [← order]
    exact h.owned_mem hr own
  touched_of_used := h.touched_of_used
  fixed_iff := h.fixed_iff
  owned_of_locked := h.owned_of_locked

theorem regular_new (budget : ByClass Nat) :
    (new (budgeted budget .general) (budgeted budget .float)).Regular budget :=
  (sound_new (sorted_budgeted budget)).regular fun c => by cases c <;> rfl

/-! ## Requests -/

/-- What a request for a register of a class for an owner does. -/
structure Allocated (budget : ByClass Nat) (f : RegisterFile) (c : RegClass) (o : Owner)
    (a : Allocation) (f' : RegisterFile) : Prop where
  regular : f'.Regular budget
  mem : a.reg ∈ budgeted budget c
  was : f.owner a.reg = a.evicted.map .value
  unlocked : f.lockCount a.reg = 0
  owner_eq : ∀ {q}, q.Valid → f'.owner q = if q = a.reg then some o else f.owner q
  lockCount_eq : ∀ {q}, q.Valid → f'.lockCount q = f.lockCount q
  touched_eq : ∀ q, f'.touched.contains q = (f.touched.contains q || decide (q = a.reg))

theorem Regular.yields_allocate (h : f.Regular budget) (c : RegClass) (o : Owner)
    (preferred : Option Reg) :
    Yields (allocate c o preferred) f (fun a f' => Allocated budget f c o a f')
      (fun _ _ => ∀ r ∈ budgeted budget c, f.owner r = some .temp ∨ 0 < f.lockCount r) := by
  rw [← h.order_eq]
  refine (h.sound.yields_allocate c o preferred).mono (fun a f' out => ?_) fun _ _ full => full.2
  have mem := h.order_eq c ▸ out.mem
  have valid := (valid_of_mem_budgeted mem).1
  refine ⟨out.sound.regular fun c => ?_, mem, out.was, out.unlocked, out.changed.owner_eq,
    fun {q} hq => ?_, fun q => ?_⟩
  · rw [out.changed.order, h.order_eq]
  · rw [out.changed.lockCount_eq hq]
    split
    · next he => rw [he, out.unlocked]
    · rfl
  · rw [out.touched, RegSet.contains_insert]
    simp only [valid.inRange, true_and]

/-- A register file with the given owners and locks, in which `touched` were handed out. -/
structure Becomes (budget : ByClass Nat) (f : RegisterFile) (owner : Reg → Option Owner)
    (locks : Reg → Nat) (touched : Reg → Bool) : Prop where
  regular : f.Regular budget
  owner_eq : ∀ {q}, q.Valid → f.owner q = owner q
  lockCount_eq : ∀ {q}, q.Valid → f.lockCount q = locks q
  touched_eq : ∀ q, f.touched.contains q = touched q

theorem Regular.becomes {owner : Option Owner} {locks : Nat} {touched : RegSet}
    (h : f.Regular budget) (adjusted : f.Adjusted r owner locks touched f') :
    f'.Becomes budget (fun q => if q = r then owner else f.owner q)
      (fun q => if q = r then locks else f.lockCount q) touched.contains where
  regular := adjusted.sound.regular fun c => by rw [adjusted.changed.order, h.order_eq]
  owner_eq := adjusted.changed.owner_eq
  lockCount_eq := adjusted.changed.lockCount_eq
  touched_eq := fun q => by rw [adjusted.touched]

theorem Becomes.congr {owner owner' : Reg → Option Owner} {locks locks' : Reg → Nat}
    {touched touched' : Reg → Bool} (h : f.Becomes budget owner locks touched)
    (ho : ∀ q, owner q = owner' q) (hl : ∀ q, locks q = locks' q)
    (ht : ∀ q, touched q = touched' q) : f.Becomes budget owner' locks' touched' := by
  obtain rfl : owner = owner' := funext ho
  obtain rfl : locks = locks' := funext hl
  obtain rfl : touched = touched' := funext ht
  exact h

/-- Claiming a register can fail only if it is outside the budget or in use. -/
theorem Regular.yields_take (h : f.Regular budget) (hr : r.Valid) (o : Owner) :
    Yields (take r o) f
      (fun _ f' => r ∈ budgeted budget r.regClass ∧ f.owner r = none ∧
        f'.Becomes budget (fun q => if q = r then some o else f.owner q) f.lockCount
          fun q => f.touched.contains q || decide (q = r))
      (fun _ _ => r ∉ budgeted budget r.regClass ∨ f.owner r ≠ none) := by
  rw [← h.order_eq]
  refine (h.sound.yields_take hr o).mono (fun _ f' ⟨mem, free, adjusted⟩ =>
    ⟨mem, free, (h.becomes adjusted).congr (fun _ => rfl) (fun q => ?_) fun q => ?_⟩)
    fun _ _ refused => refused.2
  · split
    · next he => rw [he, h.sound.lockCount_eq_zero hr free]
    · rfl
  · rw [RegSet.contains_insert]
    simp only [hr.inRange, true_and]

theorem Regular.yields_reassign (h : f.Regular budget) (hr : r.Valid) (hown : f.owner r ≠ none)
    (o : Owner) :
    Yields (reassign r o) f
      (fun _ f' => f'.Becomes budget (fun q => if q = r then some o else f.owner q) f.lockCount
        f.touched.contains)
      (fun _ _ => False) :=
  (h.sound.yields_reassign hr o).mono
    (fun _ _ done => (h.becomes done.2).congr (fun _ => rfl)
      (fun q => (ite_self_at f.lockCount q r).symm) fun _ => rfl)
    fun _ _ refused => hown refused.2

theorem Regular.yields_free (h : f.Regular budget) (hr : r.Valid) (hown : f.owner r ≠ none) :
    Yields (free r) f
      (fun _ f' => f'.Becomes budget (fun q => if q = r then none else f.owner q)
        (fun q => if q = r then 0 else f.lockCount q) f.touched.contains)
      (fun _ _ => False) :=
  (h.sound.yields_free hr).mono (fun _ _ done => h.becomes done.2) fun _ _ refused => hown refused.2

theorem Regular.yields_lock (h : f.Regular budget) (hr : r.Valid) (hown : f.owner r ≠ none) :
    Yields (lock r) f
      (fun _ f' => f'.Becomes budget f.owner
        (fun q => if q = r then f.lockCount r + 1 else f.lockCount q) f.touched.contains)
      (fun _ _ => False) :=
  (h.sound.yields_lock hr).mono
    (fun _ _ done => (h.becomes done.2).congr (fun q => (ite_self_at f.owner q r).symm)
      (fun _ => rfl) fun _ => rfl)
    fun _ _ refused => hown refused.2

theorem Regular.yields_unlock (h : f.Regular budget) (hr : r.Valid) (hl : 0 < f.lockCount r) :
    Yields (unlock r) f
      (fun _ f' => f'.Becomes budget f.owner
        (fun q => if q = r then f.lockCount r - 1 else f.lockCount q) f.touched.contains)
      (fun _ _ => False) :=
  (h.sound.yields_unlock hr).mono
    (fun _ _ done => (h.becomes done.2).congr (fun q => (ite_self_at f.owner q r).symm)
      (fun _ => rfl) fun _ => rfl)
    fun _ _ refused => absurd hl (by omega)

theorem Regular.restore {f₀ : RegisterFile} (h₀ : f₀.Regular budget) (h : f.Regular budget)
    (touched : ∀ q, f₀.touched.contains q = true → f.touched.contains q = true) :
    (f.restore f₀.snapshot).Becomes budget f₀.owner f₀.lockCount f.touched.contains :=
  ⟨⟨h₀.owners_size, h₀.locks_size, h.order_eq, h.allocatable_iff, h₀.used_iff, h₀.owned_mem,
    fun hq => touched _ (h₀.touched_of_used hq), h₀.fixed_iff, h₀.owned_of_locked⟩,
    fun _ => rfl, fun _ => rfl, fun _ => rfl⟩

end RegisterFile

end NativeExpr
