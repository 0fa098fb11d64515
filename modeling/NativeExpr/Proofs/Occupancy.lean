import NativeExpr.Proofs.Outcome
import NativeExpr.Register.File

/-!
# Register files of any orders

A register file has an owner for every register in use and nothing else, its registers in
use are those of its orders, and its locks are on registers in use. Every operation
changes the owner and the locks of one register or of none, and keeps this; an operation
that fails changes nothing.
-/
namespace NativeExpr

namespace Reg

/-- Whether a register is one of the sixteen of a bank. -/
def Valid (r : Reg) : Prop := r.bank < 2 ∧ r.id < 16

instance (r : Reg) : Decidable r.Valid := inferInstanceAs (Decidable (_ ∧ _))

theorem Valid.inRange {r : Reg} (h : r.Valid) : RegSet.InRange r :=
  ⟨h.1, Nat.lt_trans h.2 (by decide)⟩

theorem Valid.linearIndex_lt {r : Reg} (h : r.Valid) : r.linearIndex < RegisterFile.tableSize := by
  obtain ⟨hb, hi⟩ := h
  simp only [linearIndex, RegisterFile.tableSize]
  omega

theorem Valid.linearIndex_inj {r q : Reg} (hr : r.Valid) (hq : q.Valid) :
    r.linearIndex = q.linearIndex ↔ r = q := by
  obtain ⟨b, i⟩ := r
  obtain ⟨c, j⟩ := q
  obtain ⟨-, hi⟩ := hr
  obtain ⟨-, hj⟩ := hq
  simp only [linearIndex, mk.injEq] at *
  omega

end Reg

namespace RegisterFile

def lockCount (f : RegisterFile) (r : Reg) : Nat := f.locks.getD r.linearIndex 0

/-- Whether the orders hold registers of their classes only. -/
def Sorted (order : ByClass (List Reg)) : Prop :=
  ∀ {c : RegClass} {r : Reg}, r ∈ order.get c → r.Valid ∧ r.regClass = c

/-- What every register file satisfies whose orders are sorted. -/
structure Sound (f : RegisterFile) : Prop where
  owners_size : f.owners.size = tableSize
  locks_size : f.locks.size = tableSize
  sorted : Sorted f.order
  allocatable_iff : ∀ {r}, r.Valid → (f.allocatable.contains r = true ↔ r ∈ f.order.get r.regClass)
  used_iff : ∀ {r}, r.Valid → (f.used.contains r = true ↔ f.owner r ≠ none)
  owned_mem : ∀ {r}, r.Valid → f.owner r ≠ none → r ∈ f.order.get r.regClass
  touched_of_used : ∀ {r}, f.used.contains r = true → f.touched.contains r = true
  fixed_iff : ∀ {r}, r.Valid → (f.fixed.contains r = true ↔ 0 < f.lockCount r)
  owned_of_locked : ∀ {r}, r.Valid → 0 < f.lockCount r → f.owner r ≠ none

/-- Whether each clock stands at a register of its order, or at zero if there is none. -/
def ClocksInside (f : RegisterFile) : Prop :=
  ∀ c, f.clock.get c < (f.order.get c).length ∨ f.order.get c = [] ∧ f.clock.get c = 0

variable {f f' : RegisterFile} {c : RegClass} {r q : Reg} {o : Owner}

theorem contains_foldl_insert (regs : List Reg) (s : RegSet) (hv : ∀ r ∈ regs, r.Valid) :
    (regs.foldl RegSet.insert s).contains q = (s.contains q || decide (q ∈ regs)) := by
  induction regs generalizing s with
  | nil => simp
  | cons r regs ih =>
    have hr := (hv r (List.mem_cons_self ..)).inRange
    rw [List.foldl_cons, ih _ fun r h => hv r (List.mem_cons_of_mem _ h), RegSet.contains_insert]
    simp only [hr, true_and, List.mem_cons, Bool.or_assoc, Bool.decide_or]

theorem contains_ofList (regs : List Reg) (hv : ∀ r ∈ regs, r.Valid) :
    (RegSet.ofList regs).contains q = decide (q ∈ regs) := by
  rw [RegSet.ofList, contains_foldl_insert _ _ hv, RegSet.contains_empty, Bool.false_or]

theorem owner_new (general float : List Reg) (r : Reg) : (new general float).owner r = none := by
  simp only [owner, new, Array.getElem?_replicate]
  split <;> rfl

theorem lockCount_new (general float : List Reg) (r : Reg) :
    (new general float).lockCount r = 0 := by
  simp only [lockCount, new, Array.getD_eq_getD_getElem?, Array.getElem?_replicate]
  split <;> rfl

theorem sound_new {general float : List Reg} (sorted : Sorted ⟨general, float⟩) :
    (new general float).Sound where
  owners_size := Array.size_replicate
  locks_size := Array.size_replicate
  sorted := sorted
  allocatable_iff := by
    intro r hr
    have hg : ∀ q ∈ general, q.Valid ∧ q.regClass = .general := fun q h => sorted (c := .general) h
    have hf : ∀ q ∈ float, q.Valid ∧ q.regClass = .float := fun q h => sorted (c := .float) h
    simp only [new, RegSet.contains_union, contains_ofList _ fun q h => (hg q h).1,
      contains_ofList _ fun q h => (hf q h).1, Bool.or_eq_true, decide_eq_true_eq]
    constructor
    · rintro (h | h)
      · rwa [(hg r h).2]
      · rwa [(hf r h).2]
    · intro h
      cases hc : r.regClass with
      | general =>
        rw [hc] at h
        exact .inl h
      | float =>
        rw [hc] at h
        exact .inr h
  used_iff := by
    intro r _
    rw [owner_new]
    simp [new]
  owned_mem := fun _ h => absurd (owner_new ..) h
  touched_of_used := by
    intro r h
    simp [new] at h
  fixed_iff := by
    intro r _
    rw [lockCount_new]
    simp [new]
  owned_of_locked := by
    intro r _ h
    rw [lockCount_new] at h
    exact absurd h (Nat.lt_irrefl 0)

/-! ## Tables -/

theorem owner_setIfInBounds (h : f.owners.size = tableSize) (hr : r.Valid) (hq : q.Valid)
    (x : Option Owner) :
    (f.owners.setIfInBounds r.linearIndex x)[q.linearIndex]?.join =
      if q = r then x else f.owner q := by
  have hlt : r.linearIndex < f.owners.size := by
    rw [h]
    exact hr.linearIndex_lt
  rw [Array.getElem?_setIfInBounds]
  by_cases he : q = r
  · rw [if_pos (by rw [he]), if_pos hlt, if_pos he]
    rfl
  · rw [if_neg fun e => he ((hr.linearIndex_inj hq).1 e).symm, if_neg he]
    rfl

theorem lockCount_setIfInBounds (h : f.locks.size = tableSize) (hr : r.Valid) (hq : q.Valid)
    (n : Nat) :
    (f.locks.setIfInBounds r.linearIndex n).getD q.linearIndex 0 =
      if q = r then n else f.lockCount q := by
  have hlt : r.linearIndex < f.locks.size := by
    rw [h]
    exact hr.linearIndex_lt
  rw [lockCount, Array.getD_eq_getD_getElem?, Array.getD_eq_getD_getElem?,
    Array.getElem?_setIfInBounds]
  by_cases he : q = r
  · rw [if_pos (by rw [he]), if_pos hlt, if_pos he]
    rfl
  · rw [if_neg fun e => he ((hr.linearIndex_inj hq).1 e).symm, if_neg he]

theorem contains_insert_eq (s : RegSet) (hr : r.Valid) (q : Reg) :
    (s.insert r).contains q = if q = r then true else s.contains q := by
  rw [RegSet.contains_insert]
  by_cases he : q = r <;> simp [he, hr.inRange]

theorem contains_erase_eq (s : RegSet) (r q : Reg) :
    (s.erase r).contains q = if q = r then false else s.contains q := by
  rw [RegSet.contains_erase]
  by_cases he : q = r <;> simp [he]

/-! ## Changes of one register -/

/-- Another register file that differs in one register only, which has an owner or is free,
with so many locks on it. -/
structure Changed (f : RegisterFile) (r : Reg) (owner : Option Owner) (locks : Nat)
    (f' : RegisterFile) : Prop where
  order : f'.order = f.order
  allocatable : f'.allocatable = f.allocatable
  owners_size : f'.owners.size = f.owners.size
  locks_size : f'.locks.size = f.locks.size
  owner_eq : ∀ {q}, q.Valid → f'.owner q = if q = r then owner else f.owner q
  lockCount_eq : ∀ {q}, q.Valid → f'.lockCount q = if q = r then locks else f.lockCount q
  used_eq : ∀ q, f'.used.contains q = if q = r then owner.isSome else f.used.contains q
  fixed_eq : ∀ q, f'.fixed.contains q = if q = r then decide (0 < locks) else f.fixed.contains q
  touched_le : ∀ {q}, f.touched.contains q = true → f'.touched.contains q = true
  touched_self : owner.isSome = true → f'.touched.contains r = true

/-- A change keeps a register file sound if it concerns a register of the orders and puts locks
on a register with an owner only. -/
theorem Sound.changed {owner : Option Owner} {locks : Nat} (h : f.Sound)
    (changed : f.Changed r owner locks f') (hr : r ∈ f.order.get r.regClass)
    (locked : 0 < locks → owner ≠ none) : f'.Sound where
  owners_size := changed.owners_size.trans h.owners_size
  locks_size := changed.locks_size.trans h.locks_size
  sorted := changed.order ▸ h.sorted
  allocatable_iff := fun hq => by
    rw [changed.allocatable, changed.order]
    exact h.allocatable_iff hq
  used_iff := fun {q} hq => by
    rw [changed.used_eq, changed.owner_eq hq]
    split
    · exact Option.isSome_iff_ne_none
    · exact h.used_iff hq
  owned_mem := fun {q} hq => by
    rw [changed.owner_eq hq, changed.order]
    split
    · next he => exact fun _ => he ▸ hr
    · exact h.owned_mem hq
  touched_of_used := fun {q} hq => by
    rw [changed.used_eq] at hq
    split at hq
    · next he => exact he ▸ changed.touched_self hq
    · exact changed.touched_le (h.touched_of_used hq)
  fixed_iff := fun {q} hq => by
    rw [changed.fixed_eq, changed.lockCount_eq hq]
    split
    · exact decide_eq_true_iff
    · exact h.fixed_iff hq
  owned_of_locked := fun {q} hq => by
    rw [changed.lockCount_eq hq, changed.owner_eq hq]
    split
    · exact locked
    · exact h.owned_of_locked hq

theorem Sound.valid_of_mem (h : f.Sound) (hr : r ∈ f.order.get c) : r.Valid := (h.sorted hr).1

theorem Sound.mem_order (h : f.Sound) (hr : r ∈ f.order.get c) : r ∈ f.order.get r.regClass := by
  rwa [(h.sorted hr).2]

theorem Sound.lockCount_eq_zero (h : f.Sound) (hr : r.Valid) (free : f.owner r = none) :
    f.lockCount r = 0 :=
  Nat.eq_zero_of_not_pos fun pos => h.owned_of_locked hr pos free

/-- What is free of locks is so in the table of locked registers too. -/
theorem Sound.fixed_eq (h : f.Sound) (hr : r.Valid) :
    f.fixed.contains r = decide (0 < f.lockCount r) := by
  rw [Bool.eq_iff_iff, h.fixed_iff hr, decide_eq_true_iff]

theorem Sound.used_eq (h : f.Sound) (hr : r.Valid) :
    f.used.contains r = (f.owner r).isSome := by
  rw [Bool.eq_iff_iff, h.used_iff hr, Option.isSome_iff_ne_none]

theorem ite_self_at {α : Type} (table : Reg → α) (q r : Reg) :
    table q = if q = r then table r else table q := by
  split
  · next he => rw [he]
  · rfl

theorem Sound.setClock (h : f.Sound) (clock : ByClass Nat) : { f with clock := clock }.Sound :=
  ⟨h.owners_size, h.locks_size, h.sorted, h.allocatable_iff, h.used_iff, h.owned_mem,
    h.touched_of_used, h.fixed_iff, h.owned_of_locked⟩

theorem Sound.changed_assign (h : f.Sound) (hr : r.Valid) :
    f.Changed r (some o) 0 (f.assign r o) where
  order := rfl
  allocatable := rfl
  owners_size := Array.size_setIfInBounds ..
  locks_size := Array.size_setIfInBounds ..
  owner_eq := fun hq => owner_setIfInBounds h.owners_size hr hq _
  lockCount_eq := fun hq => lockCount_setIfInBounds h.locks_size hr hq _
  used_eq := contains_insert_eq _ hr
  fixed_eq := contains_erase_eq _ _
  touched_le := fun {q} hq => by
    refine (contains_insert_eq _ hr q).trans ?_
    rw [hq, ite_self]
  touched_self := fun _ => (contains_insert_eq _ hr r).trans (if_pos rfl)

/-! ## The clock -/

theorem Sound.isEvictable_iff (h : f.Sound) (hr : r.Valid) :
    f.isEvictable r = true ↔ (∃ v, f.owner r = some (.value v)) ∧ f.lockCount r = 0 := by
  have fixed : (!f.fixed.contains r) = true ↔ f.lockCount r = 0 := by
    rw [Bool.not_eq_true', ← Bool.not_eq_true, h.fixed_iff hr]
    omega
  rw [isEvictable, Bool.and_eq_true, fixed]
  refine and_congr_left fun _ => ?_
  cases f.owner r with
  | none => simp
  | some o => cases o <;> simp [Owner.value?]

variable {order : List Reg} {hand hand' steps : Nat}

theorem sweep_some (h : f.sweep order hand steps = (some r, hand')) :
    r ∈ order ∧ f.isEvictable r = true := by
  induction steps generalizing hand with
  | zero => cases h
  | succ steps ih =>
    rw [sweep] at h
    split at h
    · next q hq =>
      split at h
      · next he =>
        cases h
        exact ⟨List.mem_of_getElem? hq, he⟩
      · exact ih h
    · cases h

theorem sweep_none (hn : 0 < order.length) (h : f.sweep order hand steps = (none, hand')) :
    ∀ k < steps, ∀ r, order[(hand + k) % order.length]? = some r → f.isEvictable r = false := by
  induction steps generalizing hand with
  | zero => exact fun k hk => absurd hk (Nat.not_lt_zero k)
  | succ steps ih =>
    rw [sweep] at h
    split at h
    · next q hq =>
      split at h
      · cases h
      · next he =>
        intro k hk r hr
        cases k with
        | zero =>
          rw [Nat.add_zero, hq] at hr
          cases hr
          simpa using he
        | succ k =>
          refine ih h k (Nat.lt_of_succ_lt_succ hk) r ?_
          rw [← hr, Nat.mod_add_mod, Nat.add_assoc, Nat.add_comm 1]
    · next hq =>
      rw [List.getElem?_eq_none_iff] at hq
      exact absurd (Nat.mod_lt hand hn) (Nat.not_lt.2 hq)

/-- Without a victim no register of the order can be evicted. -/
theorem sweep_none_all (h : f.sweep order hand order.length = (none, hand')) :
    ∀ r ∈ order, f.isEvictable r = false := by
  intro r hr
  obtain ⟨i, hi, rfl⟩ := List.getElem_of_mem hr
  have hn : 0 < order.length := Nat.lt_of_le_of_lt (Nat.zero_le i) hi
  -- the step at which the hand stands at position `i`
  have reach : ∃ k < order.length, (hand + k) % order.length = i := by
    refine ⟨(i + (order.length - hand % order.length)) % order.length, Nat.mod_lt _ hn, ?_⟩
    have hm := Nat.mod_lt hand hn
    rw [Nat.add_mod_mod, ← Nat.mod_add_mod,
      show hand % order.length + (i + (order.length - hand % order.length)) = i + order.length by
        omega, Nat.add_mod_right, Nat.mod_eq_of_lt hi]
  obtain ⟨k, hk, hki⟩ := reach
  exact sweep_none hn h k hk _ (by rw [hki, List.getElem?_eq_getElem hi])

theorem sweep_hand_lt (inside : hand < order.length) :
    (f.sweep order hand steps).2 < order.length := by
  induction steps generalizing hand with
  | zero => exact inside
  | succ steps ih =>
    have next := Nat.mod_lt (hand + 1) (Nat.lt_of_le_of_lt (Nat.zero_le hand) inside)
    rw [sweep]
    split
    · split
      · exact next
      · exact ih next
    · exact inside

/-- Without a victim the hand goes on by as many places as there were steps. -/
theorem sweep_none_hand (inside : hand < order.length)
    (h : f.sweep order hand steps = (none, hand')) : hand' = (hand + steps) % order.length := by
  induction steps generalizing hand with
  | zero =>
    cases h
    exact (Nat.mod_eq_of_lt inside).symm
  | succ steps ih =>
    rw [sweep] at h
    split at h
    · split at h
      · cases h
      · rw [ih (Nat.mod_lt _ (Nat.lt_of_le_of_lt (Nat.zero_le hand) inside)) h, Nat.mod_add_mod,
          Nat.add_assoc, Nat.add_comm 1]
    · next hq =>
      rw [List.getElem?_eq_none_iff, Nat.mod_eq_of_lt inside] at hq
      exact absurd inside (Nat.not_lt.2 hq)

theorem ClocksInside.of_eq (inside : f.ClocksInside) (clock : f'.clock = f.clock)
    (order : f'.order = f.order) : f'.ClocksInside := fun d => by
  rw [clock, order]
  exact inside d

theorem clocksInside_new (general float : List Reg) : (new general float).ClocksInside := by
  have inside (order : List Reg) : 0 < order.length ∨ order = [] ∧ 0 = 0 := by
    cases order with
    | nil => exact .inr ⟨rfl, rfl⟩
    | cons => exact .inl (Nat.succ_pos _)
  rintro (_ | _)
  · exact inside general
  · exact inside float

theorem ClocksInside.sweep (inside : f.ClocksInside) (c : RegClass) (steps : Nat)
    {clock : ByClass Nat}
    (set : clock = f.clock.set c (f.sweep (f.order.get c) (f.clock.get c) steps).2) :
    { f with clock := clock }.ClocksInside := by
  intro d
  show clock.get d < (f.order.get d).length ∨ f.order.get d = [] ∧ clock.get d = 0
  rw [set, ByClass.get_set]
  split
  · next he =>
    subst he
    rcases inside d with lt | ⟨empty, zero⟩
    · exact .inl (sweep_hand_lt lt)
    · refine .inr ⟨empty, ?_⟩
      cases steps with
      | zero => exact zero
      | succ steps =>
        rw [empty, RegisterFile.sweep]
        exact zero
  · exact inside d

theorem ClocksInside.sweep_none (inside : f.ClocksInside)
    (h : f.sweep (f.order.get c) (f.clock.get c) (f.order.get c).length = (none, hand')) :
    f.clock.set c hand' = f.clock := by
  have same : hand' = f.clock.get c := by
    rcases inside c with lt | ⟨empty, zero⟩
    · rw [sweep_none_hand lt h, Nat.add_mod_right, Nat.mod_eq_of_lt lt]
    · rw [empty] at h
      cases h
      rfl
  rw [same]
  cases c <;> rfl

/-! ## Requests -/

/-- What a request for a register of a class for an owner does. -/
structure HandedOut (f : RegisterFile) (c : RegClass) (o : Owner) (a : Allocation)
    (f' : RegisterFile) : Prop where
  sound : f'.Sound
  changed : f.Changed a.reg (some o) 0 f'
  mem : a.reg ∈ f.order.get c
  was : f.owner a.reg = a.evicted.map .value
  unlocked : f.lockCount a.reg = 0
  touched : f'.touched = f.touched.insert a.reg
  clock : ∀ d, d ≠ c → f'.clock.get d = f.clock.get d
  inside : f.ClocksInside → f'.ClocksInside

theorem Sound.handedOut (h : f.Sound) (hr : r ∈ f.order.get c) (victim : Option Nat)
    (was : f.owner r = victim.map .value) (unlocked : f.lockCount r = 0) {clock : ByClass Nat}
    (others : ∀ d, d ≠ c → clock.get d = f.clock.get d)
    (inside : f.ClocksInside → { f with clock := clock }.ClocksInside) :
    f.HandedOut c o ⟨r, victim⟩ ({ f with clock := clock }.assign r o) := by
  have changed := (h.setClock clock).changed_assign (o := o) (h.valid_of_mem hr)
  have changed : f.Changed r (some o) 0 ({ f with clock := clock }.assign r o) := { changed with }
  exact ⟨h.changed changed (h.mem_order hr) fun none => absurd none (Nat.lt_irrefl 0), changed, hr,
    was, unlocked, rfl, others, inside⟩

/-- A request fails only if every register of the class has a temporary or locks in it, and
then it changes nothing. -/
theorem Sound.yields_allocate (h : f.Sound) (c : RegClass) (o : Owner) (preferred : Option Reg) :
    Yields (allocate c o preferred) f (fun a f' => f.HandedOut c o a f') (fun _ f' =>
      (f.ClocksInside → f' = f) ∧
        ∀ r ∈ f.order.get c, f.owner r = some .temp ∨ 0 < f.lockCount r) := by
  unfold allocate
  refine .bind (.of_get ?_)
  dsimp only
  have free (r : Reg) (hr : r ∈ f.order.get c) (hu : f.used.contains r = false) :
      f.owner r = none ∧ f.lockCount r = 0 := by
    have hv := h.valid_of_mem hr
    have hn : f.owner r = none := by
      refine Classical.byContradiction fun hne => ?_
      rw [(h.used_iff hv).2 hne] at hu
      cases hu
    exact ⟨hn, h.lockCount_eq_zero hv hn⟩
  split
  · next r hsome =>
    have hr : r ∈ f.order.get c ∧ f.used.contains r = false := by
      rw [Option.orElse_eq_orElse, Option.orElse_eq_or, Option.or_eq_some_iff] at hsome
      rcases hsome with hsome | ⟨-, hsome⟩
      · simpa using (Option.filter_eq_some_iff.1 hsome).2
      · exact ⟨List.mem_of_find?_eq_some hsome, by simpa using List.find?_some hsome⟩
    obtain ⟨hn, hl⟩ := free r hr.1 hr.2
    exact .bind (.of_set (.of_pure (h.handedOut hr.1 none hn hl (fun _ _ => rfl) id)))
  · next hnone =>
    have full : ∀ r ∈ f.order.get c, f.used.contains r = true := by
      rw [Option.orElse_eq_orElse, Option.orElse_eq_or, Option.or_eq_none_iff] at hnone
      simpa using hnone.2
    have clocks := fun inside : f.ClocksInside =>
      inside.sweep c (f.order.get c).length rfl
    generalize hs : f.sweep (f.order.get c) (f.clock.get c) (f.order.get c).length = found at clocks
    obtain ⟨victim, hand⟩ := found
    cases victim with
    | some r =>
      obtain ⟨hr, he⟩ := sweep_some hs
      obtain ⟨⟨v, hown⟩, hl⟩ := (h.isEvictable_iff (h.valid_of_mem hr)).1 he
      refine .bind (.of_set (.of_pure ?_))
      rw [hown]
      refine h.handedOut hr (some v) hown hl (fun d hd => ?_) clocks
      rw [ByClass.get_set, if_neg hd]
    | none =>
      refine .bind (.of_set (.of_throw ⟨fun inside => ?_, fun r hr => ?_⟩))
      · rw [inside.sweep_none hs]
      · have hv := h.valid_of_mem hr
        have he := sweep_none_all hs r hr
        rw [← Bool.not_eq_true, h.isEvictable_iff hv] at he
        have hown := (h.used_iff hv).1 (full r hr)
        cases ho : f.owner r with
        | none => exact absurd ho hown
        | some o =>
          cases o with
          | temp => exact .inl rfl
          | value v => exact .inr (Nat.pos_of_ne_zero fun hz => he ⟨⟨v, ho⟩, hz⟩)

/-- What an operation on one register does that hands out no other. -/
structure Adjusted (f : RegisterFile) (r : Reg) (owner : Option Owner) (locks : Nat)
    (touched : RegSet) (f' : RegisterFile) : Prop where
  sound : f'.Sound
  changed : f.Changed r owner locks f'
  touched : f'.touched = touched
  clock : f'.clock = f.clock

/-- Claiming a register fails only if it is outside the orders or in use. -/
theorem Sound.yields_take (h : f.Sound) (hr : r.Valid) (o : Owner) :
    Yields (take r o) f
      (fun _ f' => r ∈ f.order.get r.regClass ∧ f.owner r = none ∧
        f.Adjusted r (some o) 0 (f.touched.insert r) f')
      (fun _ f' => f' = f ∧ (r ∉ f.order.get r.regClass ∨ f.owner r ≠ none)) := by
  unfold take
  refine .bind (.of_get ?_)
  by_cases ha : f.allocatable.contains r = true
  · rw [ha]
    refine .bind (.of_pure ?_)
    have mem := (h.allocatable_iff hr).1 ha
    by_cases hu : f.used.contains r = true
    · rw [hu]
      exact .bind (.of_throw ⟨rfl, .inr ((h.used_iff hr).1 hu)⟩)
    · have free : f.owner r = none :=
        Classical.byContradiction fun hne => hu ((h.used_iff hr).2 hne)
      rw [Bool.not_eq_true] at hu
      rw [hu]
      have changed := h.changed_assign (o := o) hr
      exact .bind (.of_pure (.of_set ⟨mem, free,
        h.changed changed mem fun none => absurd none (Nat.lt_irrefl 0), changed, rfl, rfl⟩))
  · rw [Bool.not_eq_true] at ha
    rw [ha]
    refine .bind (.of_throw ⟨rfl, .inl fun mem => ?_⟩)
    rw [(h.allocatable_iff hr).2 mem] at ha
    cases ha

theorem Sound.yields_inUse (h : f.Sound) (hr : r.Valid) {g : RegisterFile → RegisterFile}
    {owner : Option Owner} {locks : Nat}
    (changed : f.owner r ≠ none → f.Changed r owner locks (g f))
    (locked : 0 < locks → f.owner r ≠ none → owner ≠ none) (touched : (g f).touched = f.touched)
    (clock : (g f).clock = f.clock) :
    Yields (do
        let f ← get
        unless f.used.contains r do throw (.notAllocated r)
        set (g f) : EStateM RegisterError RegisterFile Unit) f
      (fun _ f' => f.owner r ≠ none ∧ f.Adjusted r owner locks f.touched f')
      (fun _ f' => f' = f ∧ f.owner r = none) := by
  refine .bind (.of_get ?_)
  by_cases hu : f.used.contains r = true
  · have own := (h.used_iff hr).1 hu
    rw [hu]
    exact .bind (.of_pure (.of_set ⟨own, h.changed (changed own) (h.owned_mem hr own)
      fun pos => locked pos own, changed own, touched, clock⟩))
  · have free : f.owner r = none :=
      Classical.byContradiction fun hne => hu ((h.used_iff hr).2 hne)
    rw [Bool.not_eq_true] at hu
    rw [hu]
    exact .bind (.of_throw ⟨rfl, free⟩)

theorem Sound.yields_reassign (h : f.Sound) (hr : r.Valid) (o : Owner) :
    Yields (reassign r o) f
      (fun _ f' => f.owner r ≠ none ∧ f.Adjusted r (some o) (f.lockCount r) f.touched f')
      (fun _ f' => f' = f ∧ f.owner r = none) := by
  refine h.yields_inUse hr (fun own => ?_) (fun _ _ => Option.some_ne_none o) rfl rfl
  have used : f.used.contains r = true := (h.used_iff hr).2 own
  exact {
    order := rfl
    allocatable := rfl
    owners_size := Array.size_setIfInBounds ..
    locks_size := rfl
    owner_eq := fun hq => owner_setIfInBounds h.owners_size hr hq _
    lockCount_eq := fun {q} _ => ite_self_at f.lockCount q r
    used_eq := fun q => (ite_self_at f.used.contains q r).trans (by rw [used, Option.isSome_some])
    fixed_eq := fun q => (ite_self_at f.fixed.contains q r).trans (by rw [h.fixed_eq hr])
    touched_le := id
    touched_self := fun _ => h.touched_of_used used }

theorem Sound.yields_free (h : f.Sound) (hr : r.Valid) :
    Yields (free r) f
      (fun _ f' => f.owner r ≠ none ∧ f.Adjusted r none 0 f.touched f')
      (fun _ f' => f' = f ∧ f.owner r = none) := by
  refine h.yields_inUse hr (fun own => ?_) (fun pos _ => absurd pos (Nat.lt_irrefl 0)) rfl rfl
  exact {
    order := rfl
    allocatable := rfl
    owners_size := Array.size_setIfInBounds ..
    locks_size := Array.size_setIfInBounds ..
    owner_eq := fun hq => owner_setIfInBounds h.owners_size hr hq _
    lockCount_eq := fun hq => lockCount_setIfInBounds h.locks_size hr hq _
    used_eq := contains_erase_eq _ _
    fixed_eq := contains_erase_eq _ _
    touched_le := id
    touched_self := nofun }

theorem lockCount_modify (h : f.locks.size = tableSize) (hr : r.Valid) (hq : q.Valid) :
    (f.locks.modify r.linearIndex (· + 1)).getD q.linearIndex 0 =
      if q = r then f.lockCount r + 1 else f.lockCount q := by
  have hlt : r.linearIndex < f.locks.size := by
    rw [h]
    exact hr.linearIndex_lt
  rw [Array.getD_eq_getD_getElem?, Array.getElem?_modify]
  by_cases he : q = r
  · rw [if_pos (by rw [he]), if_pos he, he, lockCount, Array.getD_eq_getD_getElem?,
      Array.getElem?_eq_getElem hlt]
    rfl
  · rw [if_neg fun e => he ((hr.linearIndex_inj hq).1 e).symm, if_neg he, lockCount,
      Array.getD_eq_getD_getElem?]

theorem Sound.yields_lock (h : f.Sound) (hr : r.Valid) :
    Yields (lock r) f
      (fun _ f' => f.owner r ≠ none ∧
        f.Adjusted r (f.owner r) (f.lockCount r + 1) f.touched f')
      (fun _ f' => f' = f ∧ f.owner r = none) := by
  refine h.yields_inUse hr (fun own => ?_) (fun _ own => own) rfl rfl
  have used : f.used.contains r = true := (h.used_iff hr).2 own
  exact {
    order := rfl
    allocatable := rfl
    owners_size := rfl
    locks_size := Array.size_modify
    owner_eq := fun {q} _ => ite_self_at f.owner q r
    lockCount_eq := fun hq => lockCount_modify h.locks_size hr hq
    used_eq := fun q => (ite_self_at f.used.contains q r).trans (by rw [h.used_eq hr])
    fixed_eq := fun q => (contains_insert_eq _ hr q).trans (by simp)
    touched_le := id
    touched_self := fun _ => h.touched_of_used used }

theorem Sound.yields_unlock (h : f.Sound) (hr : r.Valid) :
    Yields (unlock r) f
      (fun _ f' => 0 < f.lockCount r ∧
        f.Adjusted r (f.owner r) (f.lockCount r - 1) f.touched f')
      (fun _ f' => f' = f ∧ f.lockCount r = 0) := by
  have count : f.lockCount r = f.locks[r.linearIndex]?.getD 0 := Array.getD_eq_getD_getElem? ..
  unfold unlock
  refine .bind (.of_get ?_)
  split
  · next n hn =>
    rw [hn] at count
    have count : f.lockCount r = n + 1 := count
    have pos : 0 < f.lockCount r := count ▸ Nat.succ_pos n
    have own := h.owned_of_locked hr pos
    have used := (h.used_iff hr).2 own
    refine .of_set ?_
    have changed : f.Changed r (f.owner r) (f.lockCount r - 1) { f with
        fixed := if n = 0 then f.fixed.erase r else f.fixed
        locks := f.locks.setIfInBounds r.linearIndex n } := {
      order := rfl
      allocatable := rfl
      owners_size := rfl
      locks_size := Array.size_setIfInBounds ..
      owner_eq := fun {q} _ => ite_self_at f.owner q r
      lockCount_eq := fun {q} hq => by
        rw [count]
        exact lockCount_setIfInBounds h.locks_size hr hq n
      used_eq := fun q => (ite_self_at f.used.contains q r).trans (by rw [h.used_eq hr])
      fixed_eq := fun q => by
        rw [count, Nat.add_sub_cancel]
        show (if n = 0 then f.fixed.erase r else f.fixed).contains q = _
        by_cases last : n = 0
        · rw [if_pos last, contains_erase_eq, last]
          rfl
        · have locked : f.fixed.contains r = decide (0 < n) := by
            rw [h.fixed_eq hr, count]
            simp [Nat.pos_of_ne_zero last]
          rw [if_neg last, ← locked]
          exact ite_self_at f.fixed.contains q r
      touched_le := id
      touched_self := fun _ => h.touched_of_used used }
    exact ⟨pos, h.changed changed (h.owned_mem hr own) fun _ => own, changed, rfl, rfl⟩
  · next none =>
    refine .of_throw ⟨rfl, ?_⟩
    rw [count]
    cases hn : f.locks[r.linearIndex]? with
    | none => rfl
    | some n =>
      cases n with
      | zero => rfl
      | succ n => exact absurd hn (none n)

theorem Sound.restore {f₀ : RegisterFile} (h₀ : f₀.Sound) (order : f.order = f₀.order)
    (allocatable : f.allocatable = f₀.allocatable)
    (touched : ∀ {q}, f₀.touched.contains q = true → f.touched.contains q = true) :
    (f.restore f₀.snapshot).Sound where
  owners_size := h₀.owners_size
  locks_size := h₀.locks_size
  sorted := order ▸ h₀.sorted
  allocatable_iff := fun hr => by
    show f.allocatable.contains _ = true ↔ _ ∈ f.order.get _
    rw [order, allocatable]
    exact h₀.allocatable_iff hr
  used_iff := h₀.used_iff
  owned_mem := fun hr own => by
    show _ ∈ f.order.get _
    rw [order]
    exact h₀.owned_mem hr own
  touched_of_used := fun hq => touched (h₀.touched_of_used hq)
  fixed_iff := h₀.fixed_iff
  owned_of_locked := h₀.owned_of_locked

end RegisterFile

end NativeExpr
