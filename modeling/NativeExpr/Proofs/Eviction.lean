import Mathlib.Data.List.Rotate
import NativeExpr.Proofs.Requests

/-!
# The policy of the register file

A request is given its preferred register or else the first free one. In a full class the clock
goes round from where it stands to the first register that a value owns and no lock is on, and
stops behind it. So the registers it may take form a queue: the one that is taken goes to its
end, with the new value in it, and values leave in the order in which they came.
-/
namespace NativeExpr.RegisterFile

variable {f f' : RegisterFile} {c : RegClass} {r q : Reg} {o : Owner} {preferred : Option Reg}

/-! ## What the clock may take -/

def Evictable (f : RegisterFile) (r : Reg) : Prop :=
  (∃ v, f.owner r = some (.value v)) ∧ f.isLocked r = false

theorem isEvictable_eq_true : f.isEvictable r = true ↔ f.Evictable r := by
  unfold isEvictable Evictable isLocked
  cases f.owner r with
  | none => simp
  | some o => cases o <;> simp [Owner.value?]

instance (f : RegisterFile) (r : Reg) : Decidable (f.Evictable r) :=
  decidable_of_iff _ isEvictable_eq_true

/-- The registers of a class, from the one at which the clock stands. -/
def clocked (f : RegisterFile) (c : RegClass) : List Reg :=
  (f.order.get c).rotate (f.clock.get c)

/-- The registers that the clock may take, in the order in which it comes to them. -/
def candidates (f : RegisterFile) (c : RegClass) : List Reg := (f.clocked c).filter (f.Evictable ·)

def holder (f : RegisterFile) (r : Reg) : Option Nat := (f.owner r).bind Owner.value?

def Full (f : RegisterFile) (c : RegClass) : Prop := ∀ r ∈ f.order.get c, f.isAllocated r = true

/-- Whether no register of a class is free and none may be taken. -/
def Exhausted (f : RegisterFile) (c : RegClass) : Prop :=
  f.Full c ∧ ∀ r ∈ f.order.get c, f.owner r = some .temp ∨ f.isLocked r = true

theorem mem_clocked : r ∈ f.clocked c ↔ r ∈ f.order.get c := List.mem_rotate

theorem candidates_perm (f : RegisterFile) (c : RegClass) :
    (f.candidates c).Perm ((f.order.get c).filter (f.Evictable ·)) :=
  (List.rotate_perm ..).filter _

theorem Sound.exhausted_iff (sound : f.Sound) (full : f.Full c) :
    f.Exhausted c ↔ ∀ r ∈ f.clocked c, ¬f.Evictable r := by
  constructor
  · rintro ⟨-, taken⟩ r hr ⟨⟨v, owner⟩, unlocked⟩
    rcases taken r (mem_clocked.1 hr) with temp | locked
    · rw [temp] at owner
      cases owner
    · rw [locked] at unlocked
      cases unlocked
  · intro none
    refine ⟨full, fun r hr => ?_⟩
    have kept := none r (mem_clocked.2 hr)
    cases owner : f.owner r with
    | none => exact absurd owner ((sound.used_iff (sound.valid_of_mem hr)).1 (full r hr))
    | some o =>
      cases o with
      | temp => exact .inl rfl
      | value v =>
        apply Or.inr
        rw [← Bool.not_eq_false]
        exact fun unlocked => kept ⟨⟨v, owner⟩, unlocked⟩

/-! ## The clock -/

variable {order before after : List Reg} {hand steps : Nat}

theorem getElem?_of_rotate (h : order.rotate hand = r :: after) :
    order[hand % order.length]? = some r := by
  have pos : 0 < order.length := by
    rw [← List.length_rotate order hand, h]
    exact Nat.succ_pos _
  have first := List.getElem?_rotate (n := hand) pos
  rw [Nat.zero_add, h] at first
  exact first.symm

theorem rotate_succ (h : order.rotate hand = r :: after) :
    order.rotate ((hand + 1) % order.length) = after ++ [r] := by
  rw [List.rotate_mod, ← List.rotate_rotate, h, List.rotate_cons_succ, List.rotate_zero]

/-- The clock passes by what it may not take and stops behind the first that it may. -/
theorem sweep_of_rotate (h : order.rotate hand = before ++ r :: after)
    (passed : ∀ q ∈ before, ¬f.Evictable q) (evictable : f.Evictable r)
    (enough : before.length < steps) :
    f.sweep order hand steps = (some r, (hand + (before.length + 1)) % order.length) := by
  induction before generalizing hand after steps with
  | nil =>
    obtain ⟨steps, rfl⟩ := Nat.exists_eq_add_one_of_ne_zero (Nat.ne_zero_of_lt enough)
    simp [sweep, getElem?_of_rotate h, isEvictable_eq_true.2 evictable]
  | cons q before ih =>
    obtain ⟨steps, rfl⟩ := Nat.exists_eq_add_one_of_ne_zero (Nat.ne_zero_of_lt enough)
    have kept : ¬f.isEvictable q = true := fun taken =>
      passed q (List.mem_cons_self ..) (isEvictable_eq_true.1 taken)
    have next : order.rotate ((hand + 1) % order.length) = before ++ r :: (after ++ [q]) :=
      (rotate_succ h).trans (List.append_assoc before (r :: after) [q])
    have rest := ih next (fun q hq => passed q (List.mem_cons_of_mem _ hq))
      (Nat.lt_of_succ_lt_succ enough)
    simp only [sweep, getElem?_of_rotate h, if_neg kept, rest, Nat.mod_add_mod, List.length_cons]
    rw [Nat.add_assoc, Nat.add_comm 1]

/-! ## One request -/

def offered (f : RegisterFile) (c : RegClass) (preferred : Option Reg) : Option Reg :=
  preferred.filter (fun r => (f.order.get c).contains r && !f.isAllocated r) <|>
    (f.order.get c).find? (!f.isAllocated ·)

theorem offered_hinted (mem : r ∈ f.order.get c) (free : f.isAllocated r = false) :
    f.offered c (some r) = some r := by
  simp [offered, mem, free]

theorem offered_first
    (unhinted : ∀ r, preferred = some r → r ∈ f.order.get c → f.isAllocated r = true) :
    f.offered c preferred = (f.order.get c).find? (!f.isAllocated ·) := by
  have none : preferred.filter (fun r => (f.order.get c).contains r && !f.isAllocated r) =
      none := by
    simpa using unhinted
  rw [offered, none]
  rfl

theorem offered_of_full (full : f.Full c) : f.offered c preferred = none := by
  rw [offered_first fun r _ => full r, List.find?_eq_none]
  intro r hr
  simp [full r hr]

theorem full_of_not_offered (h : f.offered c preferred = none) : f.Full c := by
  rw [offered, Option.orElse_eq_orElse, Option.orElse_eq_or, Option.or_eq_none_iff] at h
  simpa [Full] using h.2

theorem allocate_eq (f : RegisterFile) (c : RegClass) (o : Owner) (preferred : Option Reg) :
    allocate c o preferred f =
      match f.offered c preferred with
      | some r => .ok ⟨r, none⟩ (f.assign r o)
      | none =>
        match f.sweep (f.order.get c) (f.clock.get c) (f.order.get c).length with
        | (some r, hand) => .ok ⟨r, f.holder r⟩ ({ f with clock := f.clock.set c hand }.assign r o)
        | (none, hand) => .error (.noneAvailable c) { f with clock := f.clock.set c hand } := by
  have read : (get : EStateM RegisterError RegisterFile RegisterFile) f = .ok f f := rfl
  simp only [allocate, bind, EStateM.bind, read, offered, isAllocated]
  generalize (preferred.filter _ <|> _) = offer
  cases offer with
  | some r => rfl
  | none =>
    generalize f.sweep (f.order.get c) (f.clock.get c) (f.order.get c).length = found
    obtain ⟨_ | r, hand⟩ := found <;> rfl

theorem Sound.allocate_full (sound : f.Sound) (full : f.Full c)
    (h : f.clocked c = before ++ r :: after) (passed : ∀ q ∈ before, ¬f.Evictable q)
    (evictable : f.Evictable r) (o : Owner) (preferred : Option Reg) :
    ∃ f', allocate c o preferred f = .ok ⟨r, f.holder r⟩ f' ∧
      f.HandedOut c o ⟨r, f.holder r⟩ f' ∧ f'.clocked c = after ++ (before ++ [r]) := by
  have size : before.length < (f.order.get c).length := by
    rw [← List.length_rotate (f.order.get c) (f.clock.get c), ← clocked, h, List.length_append]
    exact Nat.lt_add_of_pos_right (Nat.succ_pos _)
  have served := allocate_eq f c o preferred
  simp only [offered_of_full full, sweep_of_rotate h passed evictable size] at served
  refine ⟨_, served, (sound.yields_allocate c o preferred).ok served, ?_⟩
  have place : before.length + 1 = (before ++ [r]).length := by simp
  have split : f.clocked c = (before ++ [r]) ++ after := by simp [h]
  simp only [clocked, assign, ByClass.get_set, if_true]
  rw [List.rotate_mod, ← List.rotate_rotate, ← clocked, split, place,
    List.rotate_append_length_eq]

theorem Sound.allocate_exhausted (sound : f.Sound) (inside : f.ClocksInside)
    (exhausted : f.Exhausted c) (o : Owner) (preferred : Option Reg) :
    allocate c o preferred f = .error (.noneAvailable c) f := by
  have failed := allocate_eq f c o preferred
  simp only [offered_of_full exhausted.1] at failed
  cases hs : f.sweep (f.order.get c) (f.clock.get c) (f.order.get c).length with
  | mk victim hand =>
    cases victim with
    | some r =>
      obtain ⟨mem, evictable⟩ := sweep_some hs
      exact absurd (isEvictable_eq_true.1 evictable)
        ((sound.exhausted_iff exhausted.1).1 exhausted r (mem_clocked.2 mem))
    | none =>
      simpa only [hs, inside.sweep_none hs] using failed

/-- Which register a request is given. -/
structure Granted (f : RegisterFile) (c : RegClass) (preferred : Option Reg) (a : Allocation) :
    Prop where
  hinted : ∀ r, preferred = some r → r ∈ f.order.get c → f.isAllocated r = false → a = ⟨r, none⟩
  first : (∀ r, preferred = some r → r ∈ f.order.get c → f.isAllocated r = true) →
    ∀ r, (f.order.get c).find? (!f.isAllocated ·) = some r → a = ⟨r, none⟩
  victim : f.Full c → ∃ v, f.owner a.reg = some (.value v) ∧ a.evicted = some v ∧
    f.isLocked a.reg = false ∧ ∃ before after, f.clocked c = before ++ a.reg :: after ∧
      ∀ q ∈ before, ¬f.Evictable q

theorem granted_of_offered (h : f.offered c preferred = some r) :
    f.Granted c preferred ⟨r, none⟩ where
  hinted := by
    rintro q rfl mem free
    rw [offered_hinted mem free] at h
    cases h
    rfl
  first := by
    intro unhinted q first
    rw [offered_first unhinted, first] at h
    cases h
    rfl
  victim := by
    intro full
    rw [offered_of_full full] at h
    cases h

theorem granted_of_clocked (full : f.Full c) (h : f.clocked c = before ++ r :: after)
    (passed : ∀ q ∈ before, ¬f.Evictable q) (evictable : f.Evictable r) :
    f.Granted c preferred ⟨r, f.holder r⟩ where
  hinted := by
    intro q _ mem free
    rw [full q mem] at free
    cases free
  first := by
    intro _ q first
    have mem := List.mem_of_find?_eq_some first
    simpa [full q mem] using List.find?_some first
  victim := by
    obtain ⟨⟨v, owner⟩, unlocked⟩ := evictable
    intro _
    exact ⟨v, owner, by simp [holder, owner, Owner.value?], unlocked, before, after, h, passed⟩

theorem Sound.granted (sound : f.Sound) (inside : f.ClocksInside) (c : RegClass) (o : Owner)
    (preferred : Option Reg) :
    Yields (allocate c o preferred) f
      (fun a f' => (f.Granted c preferred a ∧ ¬f.Exhausted c) ∧ f.HandedOut c o a f')
      fun e f' => e = .noneAvailable c ∧ f' = f ∧ f.Exhausted c := by
  have handed := sound.yields_allocate c o preferred
  cases offer : f.offered c preferred with
  | some r =>
    have served := allocate_eq f c o preferred
    rw [offer] at served
    have served : allocate c o preferred f = .ok ⟨r, none⟩ (f.assign r o) := served
    unfold Yields at *
    rw [served] at handed ⊢
    refine ⟨⟨granted_of_offered offer, fun exhausted => ?_⟩, handed⟩
    rw [offered_of_full exhausted.1] at offer
    cases offer
  | none =>
    have full := full_of_not_offered offer
    by_cases exhausted : f.Exhausted c
    · unfold Yields
      rw [sound.allocate_exhausted inside exhausted]
      exact ⟨rfl, rfl, exhausted⟩
    · -- the first of the registers that the clock may take
      obtain ⟨r, found⟩ : ∃ r, (f.clocked c).find? (f.Evictable ·) = some r := by
        rw [← Option.isSome_iff_exists, List.find?_isSome]
        simpa using fun none => exhausted ((sound.exhausted_iff full).2 none)
      obtain ⟨evictable, before, after, split, passed⟩ := List.find?_eq_some_iff_append.1 found
      have evictable : f.Evictable r := by simpa using evictable
      have passed : ∀ q ∈ before, ¬f.Evictable q := by simpa using passed
      obtain ⟨f', served, out, -⟩ := sound.allocate_full full split passed evictable o preferred
      unfold Yields
      rw [served]
      exact ⟨⟨granted_of_clocked full split passed evictable, exhausted⟩, out⟩

/-! ## A full class -/

/-- What a request of a value does to a full class with registers that may be taken. -/
structure Evicts (f : RegisterFile) (c : RegClass) (r : Reg) (rest : List Reg) (v : Nat)
    (f' : RegisterFile) : Prop where
  sound : f'.Sound
  order : f'.order = f.order
  full : f'.Full c
  candidates : f'.candidates c = rest ++ [r]
  holder : ∀ q ∈ f.order.get c, f'.holder q = if q = r then some v else f.holder q

/-- A register that a value takes over from another is one that may be taken, as before. -/
theorem HandedOut.evictable_iff {v : Nat} {a : Allocation}
    (out : f.HandedOut c (.value v) a f') (evictable : f.Evictable a.reg) (hq : q.Valid) :
    f'.Evictable q ↔ f.Evictable q := by
  have locked : f'.isLocked q = if q = a.reg then false else f.isLocked q := out.changed.fixed_eq q
  by_cases same : q = a.reg
  · subst same
    apply iff_of_true _ evictable
    simp [Evictable, locked, out.changed.owner_eq hq]
  · simp [Evictable, locked, out.changed.owner_eq hq, same]

theorem Sound.evicts (sound : f.Sound) (full : f.Full c) {rest : List Reg}
    (h : f.candidates c = r :: rest) (v : Nat) (preferred : Option Reg) :
    ∃ f', allocate c (.value v) preferred f = .ok ⟨r, f.holder r⟩ f' ∧
      f.Evicts c r rest v f' := by
  obtain ⟨before, after, split, passed, evictable, rfl⟩ := List.filter_eq_cons_iff.1 h
  have first : f.Evictable r := by simpa using evictable
  obtain ⟨f', served, out, turned⟩ := sound.allocate_full full split
    (by simpa using passed) first (.value v) preferred
  refine ⟨f', served, out.sound, out.changed.order, ?_, ?_, ?_⟩
  · intro q hq
    rw [out.changed.order] at hq
    apply (out.changed.used_eq q).trans
    split
    · rfl
    · exact full q hq
  · -- the clock has passed by the registers before `r`, so they are none that it may take
    have same : (f'.clocked c).filter (f'.Evictable ·) = (f'.clocked c).filter (f.Evictable ·) := by
      apply List.filter_congr
      intro q hq
      have mem : q ∈ f.order.get c := out.changed.order ▸ mem_clocked.1 hq
      exact decide_eq_decide.2 (out.evictable_iff first (sound.valid_of_mem mem))
    rw [RegisterFile.candidates, same, turned, List.filter_append, List.filter_append,
      List.filter_eq_nil_iff.2 passed, List.filter_singleton, evictable]
    rfl
  · intro q hq
    rw [RegisterFile.holder, out.changed.owner_eq (sound.valid_of_mem hq)]
    split <;> rfl

/-- Requests for registers of a class, one after the other, each for a value. -/
def allocateEach (c : RegClass) (asks : List (Nat × Option Reg)) :
    EStateM RegisterError RegisterFile (List Allocation) :=
  asks.mapM fun (v, preferred) => allocate c (.value v) preferred

/-- What requests for values are given in a full class: the registers that may be taken, in their
order and over again, and with them the values that they held at first, then the new ones. -/
structure GoesRound (f : RegisterFile) (c : RegClass) (asks : List (Nat × Option Reg))
    (as : List Allocation) : Prop where
  length : as.length = asks.length
  reg : ∀ i < asks.length,
    (as.map (·.reg))[i]? = (f.candidates c)[i % (f.candidates c).length]?
  evicted : as.map (·.evicted) =
    ((f.candidates c).map f.holder ++ asks.map (some ·.1)).take asks.length

theorem allocateEach_cons {ask : Nat × Option Reg} {asks : List (Nat × Option Reg)} {a : Allocation}
    {as : List Allocation} {f₁ : RegisterFile}
    (first : allocate c (.value ask.1) ask.2 f = .ok a f₁)
    (rest : allocateEach c asks f₁ = .ok as f') :
    allocateEach c (ask :: asks) f = .ok (a :: as) f' := by
  unfold allocateEach at *
  rw [List.mapM_cons]
  simp only [bind, EStateM.bind, first, rest]
  rfl

/-- A register at the front of the queue, then what the queue gives with that register last. -/
theorem Evicts.goesRound {rest : List Reg} {v : Nat} {asks : List (Nat × Option Reg)}
    {as : List Allocation} (h : f.candidates c = r :: rest) (nodup : (f.candidates c).Nodup)
    (mem : ∀ q ∈ f.candidates c, q ∈ f.order.get c) (step : f.Evicts c r rest v f')
    (round : f'.GoesRound c asks as) :
    f.GoesRound c ((v, preferred) :: asks) (⟨r, f.holder r⟩ :: as) := by
  obtain ⟨length, reg, evicted⟩ := round
  rw [h] at nodup mem
  have turned : rest ++ [r] = (r :: rest).rotate 1 := by
    rw [List.rotate_cons_succ, List.rotate_zero]
  constructor
  · simp [length]
  · intro i hi
    rw [h]
    cases i with
    | zero => simp
    | succ i =>
      have later := reg i (Nat.lt_of_succ_lt_succ hi)
      have inside : i % (r :: rest).length < (r :: rest).length := Nat.mod_lt _ (Nat.succ_pos _)
      rw [step.candidates, turned, List.length_rotate, List.getElem?_rotate inside,
        Nat.mod_add_mod] at later
      simpa using later
  · have others : rest.map f'.holder = rest.map f.holder := by
      apply List.map_congr_left
      intro q hq
      have apart : q ≠ r := fun same => (List.nodup_cons.1 nodup).1 (same ▸ hq)
      rw [step.holder q (mem q (List.mem_cons_of_mem _ hq)), if_neg apart]
    have own : f'.holder r = some v := by
      rw [step.holder r (mem r (List.mem_cons_self ..)), if_pos rfl]
    simp [evicted, step.candidates, h, others, own]

theorem Sound.goesRound (sound : f.Sound) (nodup : (f.order.get c).Nodup) (full : f.Full c)
    (some : f.candidates c ≠ []) (asks : List (Nat × Option Reg)) :
    ∃ as f', allocateEach c asks f = .ok as f' ∧ f.GoesRound c asks as := by
  induction asks generalizing f with
  | nil => exact ⟨[], f, rfl, rfl, by simp, by simp⟩
  | cons ask asks ih =>
    obtain ⟨v, preferred⟩ := ask
    obtain ⟨r, rest, h⟩ := List.exists_cons_of_ne_nil some
    obtain ⟨f₁, served, step⟩ := sound.evicts full h v preferred
    obtain ⟨as, f', run, round⟩ := ih step.sound (step.order ▸ nodup) step.full
      (by simp [step.candidates])
    have once : (f.candidates c).Nodup := (candidates_perm f c).nodup_iff.2 (nodup.filter _)
    have mem : ∀ q ∈ f.candidates c, q ∈ f.order.get c := fun q hq =>
      mem_clocked.1 (List.mem_of_mem_filter hq)
    exact ⟨_, f', allocateEach_cons served run, step.goesRound h once mem round⟩

/-- A request for each register that may be taken takes it once, and one more the first again. -/
theorem GoesRound.lap {asks : List (Nat × Option Reg)} {as : List Allocation} {k : Nat}
    (round : f.GoesRound c asks as) (size : (f.candidates c).length = k) (pos : 0 < k)
    (enough : asks.length = k + 1) :
    (as.take k).map (·.reg) = f.candidates c ∧
      (as.map (·.reg))[k]? = (as.map (·.reg))[0]? := by
  subst size
  constructor
  · apply List.ext_getElem?
    intro i
    rw [List.map_take, List.getElem?_take]
    split
    · next inside => rw [round.reg i (by omega), Nat.mod_eq_of_lt inside]
    · next outside => rw [List.getElem?_eq_none (Nat.le_of_not_lt outside)]
  · rw [round.reg _ (by omega), round.reg 0 (by omega), Nat.mod_self, Nat.zero_mod]

/-! ## After any requests -/

/-- Orders of valid registers of their classes, none of them twice. -/
structure WellFormed (order : ByClass (List Reg)) : Prop where
  sorted : Sorted order
  nodup : ∀ c, (order.get c).Nodup

namespace History

variable {h : History}

theorem Sound.order_run (sound : h.Sound) {qs : List Request} (valid : ∀ q ∈ qs, q.Valid) :
    (h.run qs).file.order = h.file.order := by
  induction qs generalizing h with
  | nil => rfl
  | cons q qs ih =>
    obtain ⟨after, order⟩ := sound.step (valid q (List.mem_cons_self ..))
    exact (ih after fun q hq => valid q (List.mem_cons_of_mem _ hq)).trans order

/-- After any requests, a request for a register is given the preferred one if that is a free one
of the class, else the first free one, else the first from the clock on that a value owns and no
lock is on, with that value as the victim. It fails only in a class without such registers. In a
full class requests for values go round the registers that may be taken. -/
theorem allocation_policy {general float : List Reg} (w : WellFormed ⟨general, float⟩)
    {qs : List Request} (valid : ∀ q ∈ qs, q.Valid) {f : RegisterFile}
    (reached : ((new general float).run qs).file = f) (c : RegClass) :
    (∀ o preferred, Yields (allocate c o preferred) f
      (fun a f' => f.Granted c preferred a ∧ f'.owner a.reg = some o)
      fun e f' => e = .noneAvailable c ∧ f' = f) ∧
    (∀ o preferred, (∃ e f', allocate c o preferred f = .error e f') ↔ f.Exhausted c) ∧
    (f.Full c → ∀ k, ((f.order.get c).filter (f.Evictable ·)).length = k → 1 ≤ k → ∀ asks,
      ∃ as f', allocateEach c asks f = .ok as f' ∧ f.GoesRound c asks as ∧
        (asks.length = k + 1 →
          ((as.take k).map (·.reg)).Perm ((f.order.get c).filter (f.Evictable ·)) ∧
            (as.map (·.reg))[k]? = (as.map (·.reg))[0]?)) := by
  have sound := (sound_new w.sorted).run valid
  have order := (sound_new w.sorted).order_run valid
  rw [reached] at order
  have file : f.Sound := reached ▸ sound.file
  have inside : f.ClocksInside := reached ▸ sound.inside
  refine ⟨fun o preferred => ?_, fun o preferred => ?_, ?_⟩
  · apply (file.granted inside c o preferred).mono
    · rintro a f' ⟨⟨granted, -⟩, out⟩
      refine ⟨granted, ?_⟩
      rw [out.changed.owner_eq (file.valid_of_mem out.mem), if_pos rfl]
    · rintro e f' ⟨rfl, same, -⟩
      exact ⟨rfl, same⟩
  · constructor
    · rintro ⟨e, f', failed⟩
      exact ((file.granted inside c o preferred).error failed).2.2
    · intro exhausted
      exact ⟨_, _, file.allocate_exhausted inside exhausted o preferred⟩
  · intro full k size pos asks
    have size : (f.candidates c).length = k := (f.candidates_perm c).length_eq.trans size
    have some : f.candidates c ≠ [] := List.ne_nil_of_length_pos (size ▸ pos)
    have nodup : (f.order.get c).Nodup := order ▸ w.nodup c
    obtain ⟨as, f', run, round⟩ := file.goesRound nodup full some asks
    refine ⟨as, f', run, round, fun enough => ?_⟩
    obtain ⟨lap, again⟩ := round.lap size pos enough
    exact ⟨lap ▸ f.candidates_perm c, again⟩

/-- Three values and a temporary fill the general registers, one value is locked, and the clock
has taken one register. -/
def crowding : List Request :=
  [.allocate .general (.value 0) none, .allocate .general .temp none,
    .allocate .general (.value 1) none, .allocate .general (.value 2) none, .lock (.gp 2),
    .allocate .general (.value 3) none]

/-- Two of the registers may be taken, and three more values are given them in turn. -/
theorem allocation_policy_crowding :
    WellFormed ⟨[.gp 0, .gp 1, .gp 2, .gp 3], [.xmm 0]⟩ ∧ (∀ q ∈ crowding, q.Valid) ∧
      ∃ as f', allocateEach .general [(4, some (.gp 1)), (5, none), (6, none)]
          ((new [.gp 0, .gp 1, .gp 2, .gp 3] [.xmm 0]).run crowding).file = .ok as f' ∧
        ((as.take 2).map (·.reg)).Perm [.gp 0, .gp 3] ∧
          (as.map (·.reg))[2]? = (as.map (·.reg))[0]? := by
  have w : WellFormed ⟨[.gp 0, .gp 1, .gp 2, .gp 3], [.xmm 0]⟩ := by
    constructor
    · rintro (_ | _) r hr
      · exact (by decide : ∀ r ∈ [Reg.gp 0, .gp 1, .gp 2, .gp 3], r.Valid ∧ r.regClass = .general)
          r hr
      · exact (by decide : ∀ r ∈ [Reg.xmm 0], r.Valid ∧ r.regClass = .float) r hr
    · rintro (_ | _) <;> decide
  have valid : ∀ q ∈ crowding, q.Valid := by decide
  refine ⟨w, valid, ?_⟩
  obtain ⟨-, -, rounds⟩ := allocation_policy w valid rfl .general
  have full : ((new [.gp 0, .gp 1, .gp 2, .gp 3] [.xmm 0]).run crowding).file.Full .general := by
    unfold Full
    decide
  obtain ⟨as, f', run, -, lap⟩ := rounds full 2 (by decide) (by decide)
    [(4, some (.gp 1)), (5, none), (6, none)]
  obtain ⟨taken, again⟩ := lap rfl
  exact ⟨as, f', run, taken, again⟩

end History

end NativeExpr.RegisterFile
