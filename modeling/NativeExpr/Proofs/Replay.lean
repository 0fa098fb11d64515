import NativeExpr.Proofs.Eviction

/-!
# Replay

What a register file answers depends on its occupancy and its orders alone, and a snapshot holds
all of the occupancy. So requests after a snapshot are answered in the same way, step by step,
whether they come at once or after other requests and a return to the snapshot. What has been
handed out stays on record: the registers of before the snapshot, of the requests that were
taken back, and of those that came after.
-/
namespace NativeExpr.RegisterFile

variable {α : Type} {f g f' g' : RegisterFile} {c : RegClass} {r : Reg} {o : Owner}
variable {preferred : Option Reg}

/-- Register files that a request cannot tell apart: they differ at most in what they have
handed out so far. -/
def Alike (f g : RegisterFile) : Prop := ∃ touched served, g = { f with touched, served }

/-- What a request leaves on record: the register it handed out, if any. That is a register of an
order, or one that a set holds. -/
structure Logs (f : RegisterFile) (handed : Option Reg) (f' : RegisterFile) : Prop where
  listed : ∀ r ∈ handed, (∃ c, r ∈ f.order.get c) ∨ RegSet.InRange r
  order : f'.order = f.order
  allocatable : f'.allocatable = f.allocatable
  touched : f'.touched = handed.elim f.touched f.touched.insert
  served : f'.served = f.served + handed.toList.length

/-- One request to two register files: it succeeds in both with one result or fails in both with
one error, hands out the same register, and leaves them alike. -/
inductive Together (f g : RegisterFile) (handed : α → Option Reg) :
    (r r' : EStateM.Result RegisterError RegisterFile α) → Prop
  | ok (a : α) {f' g' : RegisterFile} (alike : f'.Alike g') (logs : f.Logs (handed a) f')
      (logs' : g.Logs (handed a) g') : Together f g handed (.ok a f') (.ok a g')
  | error (e : RegisterError) {f' g' : RegisterFile} (alike : f'.Alike g')
      (logs : f.Logs none f') (logs' : g.Logs none g') :
      Together f g handed (.error e f') (.error e g')

theorem Alike.refl (f : RegisterFile) : f.Alike f := ⟨f.touched, f.served, rfl⟩

theorem Alike.occupancy (h : f.Alike g) : g.toOccupancy = f.toOccupancy := by
  obtain ⟨touched, served, rfl⟩ := h
  rfl

theorem Alike.allocatedIn (h : f.Alike g) : g.allocatedIn = f.allocatedIn := by
  obtain ⟨touched, served, rfl⟩ := h
  rfl

/-- Going back to one occupancy makes register files of the same orders alike. -/
theorem alike_restore (order : g.order = f.order) (allocatable : g.allocatable = f.allocatable)
    (s : Occupancy) : (f.restore s).Alike (g.restore s) := by
  refine ⟨g.touched, g.served, ?_⟩
  simp [restore, order, allocatable]

/-! ## One request -/

theorem get_apply (f : RegisterFile) :
    (get : EStateM RegisterError RegisterFile RegisterFile) f = .ok f f := rfl

theorem inRange_of_contains {s : RegSet} (member : s.contains r = true) : RegSet.InRange r := by
  have bit : r.id < 64 := BitVec.lt_of_getLsbD member
  unfold RegSet.contains RegSet.mask at member
  split at member
  · next bank => exact ⟨by omega, bit⟩
  · next bank => exact ⟨by omega, bit⟩
  · simp at member

theorem mem_of_offered (h : f.offered c preferred = some r) : r ∈ f.order.get c := by
  rw [offered, Option.orElse_eq_orElse, Option.orElse_eq_or, Option.or_eq_some_iff] at h
  rcases h with hinted | ⟨-, first⟩
  · simp only [Option.filter_eq_some_iff, Bool.and_eq_true, List.contains_iff_mem] at hinted
    exact hinted.2.1
  · exact List.mem_of_find?_eq_some first

theorem logs_none (f : RegisterFile) (s : Occupancy) : f.Logs none (f.restore s) :=
  ⟨nofun, rfl, rfl, rfl, rfl⟩

theorem logs_assign (clock : ByClass Nat) (o : Owner)
    (listed : (∃ c, r ∈ f.order.get c) ∨ RegSet.InRange r) :
    f.Logs (some r) ({ f with clock }.assign r o) :=
  ⟨fun _ same => Option.some.inj same ▸ listed, rfl, rfl, rfl, rfl⟩

theorem sweep_alike (h : f.Alike g) (order : List Reg) (hand steps : Nat) :
    g.sweep order hand steps = f.sweep order hand steps := by
  obtain ⟨touched, served, rfl⟩ := h
  induction steps generalizing hand with
  | zero => rfl
  | succ steps ih =>
    rw [sweep, sweep, ih]
    rfl

theorem Alike.allocate (h : f.Alike g) (c : RegClass) (o : Owner) (preferred : Option Reg) :
    Together f g (fun a => some a.reg) (allocate c o preferred f) (allocate c o preferred g) := by
  have offers : g.offered c preferred = f.offered c preferred := by
    obtain ⟨touched, served, rfl⟩ := h
    rfl
  have swept : g.sweep (g.order.get c) (g.clock.get c) (g.order.get c).length =
      f.sweep (f.order.get c) (f.clock.get c) (f.order.get c).length := by
    have same := sweep_alike h (f.order.get c) (f.clock.get c) (f.order.get c).length
    obtain ⟨touched, served, rfl⟩ := h
    exact same
  rw [allocate_eq, allocate_eq, offers, swept]
  obtain ⟨touched, served, rfl⟩ := h
  cases offered : f.offered c preferred with
  | some r =>
    have listed : (∃ c, r ∈ f.order.get c) ∨ RegSet.InRange r := .inl ⟨c, mem_of_offered offered⟩
    exact .ok _ ⟨_, _, rfl⟩ (logs_assign f.clock o listed) (logs_assign f.clock o listed)
  | none =>
    obtain ⟨⟨victim, hand⟩, found⟩ : ∃ p,
        f.sweep (f.order.get c) (f.clock.get c) (f.order.get c).length = p := ⟨_, rfl⟩
    rw [found]
    cases victim with
    | some r =>
      have listed : (∃ c, r ∈ f.order.get c) ∨ RegSet.InRange r := .inl ⟨c, (sweep_some found).1⟩
      exact .ok _ ⟨_, _, rfl⟩ (logs_assign _ o listed) (logs_assign _ o listed)
    | none => exact .error _ ⟨_, _, rfl⟩ ⟨nofun, rfl, rfl, rfl, rfl⟩ ⟨nofun, rfl, rfl, rfl, rfl⟩

theorem Alike.take (h : f.Alike g) (r : Reg) (o : Owner) :
    Together f g (fun _ => some r) (take r o f) (take r o g) := by
  obtain ⟨touched, served, rfl⟩ := h
  simp only [RegisterFile.take, bind, EStateM.bind, get_apply]
  cases known : f.allocatable.contains r with
  | false => exact .error _ ⟨_, _, rfl⟩ (logs_none f _) (logs_none _ _)
  | true =>
    cases f.used.contains r with
    | true => exact .error _ ⟨_, _, rfl⟩ (logs_none f _) (logs_none _ _)
    | false =>
      have listed : (∃ c, r ∈ f.order.get c) ∨ RegSet.InRange r := .inr (inRange_of_contains known)
      exact .ok () ⟨_, _, rfl⟩ (logs_assign f.clock o listed) (logs_assign f.clock o listed)

theorem Alike.inUse (h : f.Alike g) (r : Reg) (change : Occupancy → Occupancy) :
    let m : EStateM RegisterError RegisterFile Unit := do
      let f ← get
      unless f.used.contains r do throw (.notAllocated r)
      set (f.restore (change f.toOccupancy))
    Together f g (fun _ => none) (m f) (m g) := by
  obtain ⟨touched, served, rfl⟩ := h
  simp only [bind, EStateM.bind, get_apply]
  cases f.used.contains r with
  | false => exact .error _ ⟨_, _, rfl⟩ (logs_none f _) (logs_none _ _)
  | true => exact .ok () ⟨_, _, rfl⟩ (logs_none f _) (logs_none _ _)

theorem Alike.unlock (h : f.Alike g) :
    Together f g (fun _ => none) (unlock r f) (unlock r g) := by
  obtain ⟨touched, served, rfl⟩ := h
  simp only [RegisterFile.unlock, bind, EStateM.bind, get_apply]
  cases f.locks[r.linearIndex]? with
  | none => exact .error _ ⟨_, _, rfl⟩ (logs_none f _) (logs_none _ _)
  | some n =>
    cases n with
    | zero => exact .error _ ⟨_, _, rfl⟩ (logs_none f _) (logs_none _ _)
    | succ n => exact .ok () ⟨_, _, rfl⟩ (logs_none f _) (logs_none _ _)

/-! ## Requests -/

namespace History

/-- A request to register files with their histories, as for the files alone. -/
inductive Together (h k : History) :
    (r r' : EStateM.Result RegisterError History (Option Allocation)) → Prop
  | ok (a : Option Allocation) (handed : Option Reg) {f g : RegisterFile} (alike : f.Alike g)
      (logs : h.file.Logs handed f) (logs' : k.file.Logs handed g) :
      Together h k (.ok a { h with file := f, handed := handed.toList ++ h.handed })
        (.ok a { k with file := g, handed := handed.toList ++ k.handed })
  | error (e : RegisterError) {f g : RegisterFile} (alike : f.Alike g)
      (logs : h.file.Logs none f) (logs' : k.file.Logs none g) :
      Together h k (.error e { h with file := f }) (.error e { k with file := g })

variable {h k : History} {q : Request}

theorem together_inUse {m : EStateM RegisterError RegisterFile Unit}
    (both : RegisterFile.Together h.file k.file (fun _ => none) (m h.file) (m k.file)) :
    Together h k ((do onFile m; return none : EStateM RegisterError History _) h)
      ((do onFile m; return none : EStateM RegisterError History _) k) := by
  simp only [bind, EStateM.bind, onFile]
  generalize m h.file = r, m k.file = r' at both
  cases both with
  | ok a alike logs logs' => exact .ok none none alike logs logs'
  | error e alike logs logs' => exact .error e alike logs logs'

theorem together_perform (alike : h.file.Alike k.file)
    (plain : q ≠ .snapshot ∧ ∀ number, q ≠ .restore number) :
    Together h k (q.perform h) (q.perform k) := by
  cases q with
  | allocate c o preferred =>
    have both := alike.allocate c o preferred
    simp only [Request.perform, bind, EStateM.bind, onFile]
    generalize RegisterFile.allocate c o preferred h.file = r,
      RegisterFile.allocate c o preferred k.file = r' at both
    cases both with
    | ok a alike logs logs' => exact .ok (some a) (some a.reg) alike logs logs'
    | error e alike logs logs' => exact .error e alike logs logs'
  | take r o =>
    have both := alike.take r o
    simp only [Request.perform, bind, EStateM.bind, onFile]
    generalize RegisterFile.take r o h.file = r₁, RegisterFile.take r o k.file = r₂ at both
    cases both with
    | ok a alike logs logs' => exact .ok none (some r) alike logs logs'
    | error e alike logs logs' => exact .error e alike logs logs'
  | reassign r o => exact together_inUse (alike.inUse r fun s =>
      { s with owners := s.owners.setIfInBounds r.linearIndex (some o) })
  | free r => exact together_inUse (alike.inUse r fun s =>
      { s with
        used := s.used.erase r
        fixed := s.fixed.erase r
        owners := s.owners.setIfInBounds r.linearIndex none
        locks := s.locks.setIfInBounds r.linearIndex 0 })
  | lock r => exact together_inUse (alike.inUse r fun s =>
      { s with
        fixed := s.fixed.insert r
        locks := s.locks.modify r.linearIndex (· + 1) })
  | unlock r => exact together_inUse alike.unlock
  | snapshot => exact absurd rfl plain.1
  | restore number => exact absurd rfl (plain.2 number)

/-! ## What is seen of requests -/

def answer (h : History) (q : Request) : Except RegisterError (Option Allocation) :=
  match q.perform h with
  | .ok a _ => .ok a
  | .error e _ => .error e

/-- What is seen of a request: its answer with the victim, and after it the occupancy with owners,
locks and clocks, and the registers in use in the order of allocation. -/
structure Entry where
  answer : Except RegisterError (Option Allocation)
  occupancy : Occupancy
  inUse : ByClass (List Reg)

/-- What is seen of requests, step by step. -/
def transcript (h : History) : List Request → List Entry
  | [] => []
  | q :: qs =>
    let k := h.after q
    ⟨h.answer q, k.file.snapshot, ⟨k.file.allocatedIn .general, k.file.allocatedIn .float⟩⟩ ::
      k.transcript qs

/-- A request that is made where `more` snapshots have been taken behind the first `kept`: it
names those by their numbers, and later ones by numbers that are higher. -/
def renumber (kept more : Nat) : Request → Request
  | .restore number => .restore (if number < kept then number else number + more)
  | q => q

/-- A request that is no matter of snapshots goes the same way in alike register files. -/
theorem after_together (alike : h.file.Alike k.file)
    (plain : q ≠ .snapshot ∧ ∀ number, q ≠ .restore number) :
    k.answer q = h.answer q ∧ ∃ f g handed, f.Alike g ∧
      h.file.Logs handed f ∧
      h.after q = { h with file := f, handed := handed.toList ++ h.handed } ∧
      k.file.Logs handed g ∧
      k.after q = { k with file := g, handed := handed.toList ++ k.handed } := by
  have both := together_perform alike plain
  unfold answer after
  generalize q.perform h = r, q.perform k = r' at both
  cases both with
  | ok a handed alike logs logs' => exact ⟨rfl, _, _, handed, alike, logs, rfl, logs', rfl⟩
  | error e alike logs logs' => exact ⟨rfl, _, _, none, alike, logs, rfl, logs', rfl⟩

theorem after_snapshot (h : History) :
    h.after .snapshot = { h with snapshots := h.snapshots ++ [h.file.snapshot] } := rfl

theorem after_restore (h : History) (number : Nat) : h.after (.restore number) =
    match h.snapshots[number]? with
    | some s => { h with file := h.file.restore s }
    | none => h := rfl

/-! ## The record -/

/-- Whether the register file has on record what has been handed out. -/
structure Logged (h : History) : Prop where
  touched : ∀ r, h.file.touched.contains r = decide (RegSet.InRange r ∧ r ∈ h.handed)
  served : h.file.served = h.handed.length

/-- Whether sets can hold all registers of the orders, and all that were handed out. -/
structure Fits (h : History) : Prop where
  order : ∀ c, ∀ r ∈ h.file.order.get c, RegSet.InRange r
  handed : ∀ r ∈ h.handed, RegSet.InRange r

/-- What requests leave of a history: its orders, its snapshots and what it has handed out. -/
structure Grows (taken : Nat) (h k : History) : Prop where
  order : k.file.order = h.file.order
  allocatable : k.file.allocatable = h.file.allocatable
  snapshots : ∃ late, k.snapshots = h.snapshots ++ late ∧ late.length = taken
  handed : ∃ new, k.handed = new ++ h.handed
  logged : h.Logged → k.Logged
  fits : h.Fits → k.Fits

theorem Logged.handOut {handed : Option Reg} (logged : h.Logged) (logs : h.file.Logs handed f) :
    ({ h with file := f, handed := handed.toList ++ h.handed } : History).Logged where
  touched := by
    intro r
    show f.touched.contains r = _
    rw [logs.touched]
    cases handed with
    | none => exact logged.touched r
    | some q =>
      rw [Option.elim, RegSet.contains_insert, logged.touched]
      by_cases same : r = q
      · subst same
        by_cases fits : RegSet.InRange r <;> simp [fits]
      · simp [same]
  served := by
    show f.served = _
    rw [logs.served, logged.served, List.length_append, Nat.add_comm]

theorem Fits.handOut {handed : Option Reg} (fits : h.Fits) (logs : h.file.Logs handed f) :
    ({ h with file := f, handed := handed.toList ++ h.handed } : History).Fits where
  order := logs.order ▸ fits.order
  handed := by
    intro r mem
    rcases List.mem_append.1 mem with new | old
    · rcases logs.listed r (Option.mem_toList.1 new) with ⟨c, ordered⟩ | inRange
      · exact fits.order c r ordered
      · exact inRange
    · exact fits.handed r old

theorem logged_new (general float : List Reg) : (new general float).Logged where
  touched := by simp [new, RegisterFile.new]
  served := rfl

theorem fits_new {general float : List Reg} (inRange : ∀ r ∈ general ++ float, RegSet.InRange r) :
    (new general float).Fits where
  order := by
    intro c r mem
    apply inRange r
    rw [List.mem_append]
    cases c with
    | general => exact .inl mem
    | float => exact .inr mem
  handed := nofun

theorem Grows.refl (h : History) : h.Grows 0 h :=
  ⟨rfl, rfl, ⟨[], by simp⟩, ⟨[], rfl⟩, id, id⟩

theorem Grows.trans {l : History} {n m : Nat} (first : Grows n h k) (second : Grows m k l) :
    Grows (n + m) h l where
  order := second.order.trans first.order
  allocatable := second.allocatable.trans first.allocatable
  snapshots := by
    obtain ⟨late, old, rfl⟩ := first.snapshots
    obtain ⟨later, all, rfl⟩ := second.snapshots
    exact ⟨late ++ later, by rw [all, old, List.append_assoc], List.length_append⟩
  handed := by
    obtain ⟨new, old⟩ := first.handed
    obtain ⟨newer, all⟩ := second.handed
    exact ⟨newer ++ new, by rw [all, old, List.append_assoc]⟩
  logged := second.logged ∘ first.logged
  fits := second.fits ∘ first.fits

theorem grows_after (h : History) (q : Request) :
    h.Grows (if q = .snapshot then 1 else 0) (h.after q) := by
  by_cases taken : q = .snapshot
  · subst taken
    rw [after_snapshot]
    exact ⟨rfl, rfl, ⟨[h.file.snapshot], rfl, rfl⟩, ⟨[], rfl⟩,
      fun logged => ⟨logged.1, logged.2⟩, fun fits => ⟨fits.1, fits.2⟩⟩
  rw [if_neg taken]
  by_cases back : ∃ number, q = .restore number
  · obtain ⟨number, rfl⟩ := back
    rw [after_restore]
    split
    · exact ⟨rfl, rfl, ⟨[], by simp⟩, ⟨[], rfl⟩,
        fun logged => ⟨logged.1, logged.2⟩, fun fits => ⟨fits.1, fits.2⟩⟩
    · exact .refl h
  · obtain ⟨-, f, -, handed, -, logs, changed, -⟩ :=
      after_together (.refl h.file) ⟨taken, not_exists.1 back⟩
    rw [changed]
    exact ⟨logs.order, logs.allocatable, ⟨[], by simp⟩, ⟨handed.toList, rfl⟩,
      fun logged => logged.handOut logs, fun fits => fits.handOut logs⟩

theorem grows_run (h : History) (qs : List Request) : h.Grows (qs.count .snapshot) (h.run qs) := by
  induction qs generalizing h with
  | nil => exact .refl h
  | cons q qs ih =>
    have both : h.Grows _ (h.run (q :: qs)) := (grows_after h q).trans (ih (h.after q))
    rw [List.count_cons, Nat.add_comm]
    simpa using both

/-! ## Replay -/

/-- A history that goes on from a snapshot, and another that goes on in the same way after it has
come back to the snapshot from requests that took `more` snapshots. -/
structure Replays (kept more : Nat) (before aside : List Reg) (h k : History) : Prop where
  file : h.file.Alike k.file
  snapshots : ∃ early late taken, h.snapshots = early ++ late ∧
    k.snapshots = early ++ (taken ++ late) ∧ early.length = kept ∧ taken.length = more
  handed : ∃ new, h.handed = new ++ before ∧ k.handed = new ++ (aside ++ before)

variable {kept more : Nat} {before aside : List Reg}

theorem Replays.getElem?_renumber (both : Replays kept more before aside h k) (number : Nat) :
    k.snapshots[if number < kept then number else number + more]? = h.snapshots[number]? := by
  obtain ⟨early, late, taken, hs, ks, rfl, rfl⟩ := both.snapshots
  rw [hs, ks]
  split
  · next old => rw [List.getElem?_append_left old, List.getElem?_append_left old]
  · next new =>
    rw [List.getElem?_append_right (by omega), List.getElem?_append_right (by omega),
      List.getElem?_append_right (by omega)]
    congr 1
    omega

theorem Replays.step (both : Replays kept more before aside h k) (q : Request) :
    k.answer (renumber kept more q) = h.answer q ∧
      Replays kept more before aside (h.after q) (k.after (renumber kept more q)) := by
  by_cases taken : q = .snapshot
  · subst taken
    refine ⟨rfl, both.file, ?_, both.handed⟩
    obtain ⟨early, late, taken, hs, ks, size, size'⟩ := both.snapshots
    refine ⟨early, late ++ [h.file.snapshot], taken, ?_, ?_, size, size'⟩
    · simp [after_snapshot, hs]
    · simp [renumber, after_snapshot, ks, snapshot, both.file.occupancy]
  by_cases back : ∃ number, q = .restore number
  · obtain ⟨number, rfl⟩ := back
    refine ⟨rfl, ?_⟩
    rw [renumber, after_restore, after_restore, both.getElem?_renumber]
    cases h.snapshots[number]? with
    | none => exact both
    | some s =>
      obtain ⟨touched, served, same⟩ := both.file
      refine ⟨⟨touched, served, ?_⟩, both.snapshots, both.handed⟩
      simp [same, restore]
  · have plain := not_exists.1 back
    have same : renumber kept more q = q := by
      cases q with
      | restore number => exact absurd rfl (plain number)
      | _ => rfl
    obtain ⟨answered, f, g, handed, alike, -, changed, -, changed'⟩ :=
      after_together both.file ⟨taken, plain⟩
    rw [same, changed, changed']
    obtain ⟨new, hh, kh⟩ := both.handed
    refine ⟨answered, alike, both.snapshots, handed.toList ++ new, ?_, ?_⟩
    · simp [hh]
    · simp [kh]

theorem Replays.run (both : Replays kept more before aside h k) (qs : List Request) :
    k.transcript (qs.map (renumber kept more)) = h.transcript qs ∧
      Replays kept more before aside (h.run qs) (k.run (qs.map (renumber kept more))) := by
  induction qs generalizing h k with
  | nil => exact ⟨rfl, both⟩
  | cons q qs ih =>
    obtain ⟨answered, next⟩ := both.step q
    obtain ⟨rest, final⟩ := ih next
    refine ⟨?_, final⟩
    simp only [List.map_cons, transcript, answered, rest, snapshot, next.file.occupancy,
      next.file.allocatedIn]

/-- Requests `later` that come after a return to a snapshot from requests `aside` are answered,
step by step, as right behind the snapshot: with the same results, errors and victims, and with
the same owners, locks, clocks and registers in use after every one. They name the snapshots from
before and their own, not those of `aside`; nor can `aside` name theirs. The registers on record
as handed out are those of before, of `aside` and of `later`, and every one of them is counted.
Sets cannot hold registers that are out of range, but those are handed out only from orders that
list them. -/
theorem replay_restored (general float : List Reg) (earlier aside later : List Request) :
    let before := (new general float).run earlier
    let start := before.after .snapshot
    let again := (start.run aside).after (.restore before.snapshots.length)
    let replayed := later.map (renumber start.snapshots.length (aside.count .snapshot))
    again.file.snapshot = start.file.snapshot ∧
      again.transcript replayed = start.transcript later ∧
      ∃ out out', (start.run aside).handed = out ++ before.handed ∧
        (start.run later).handed = out' ++ before.handed ∧
        (∀ candidates, (again.run replayed).file.touchedAmong candidates =
          candidates.filter fun r =>
            decide (RegSet.InRange r ∧ (r ∈ before.handed ∨ r ∈ out ∨ r ∈ out'))) ∧
        ((∀ r ∈ general ++ float, RegSet.InRange r) →
          ∀ r, r ∈ before.handed ∨ r ∈ out ∨ r ∈ out' → RegSet.InRange r) ∧
        (again.run replayed).file.served =
          before.handed.length + out.length + out'.length := by
  intro before start again replayed
  have come := (grows_run _ earlier).trans (grows_after before .snapshot)
  have gone := grows_run start aside
  obtain ⟨late, snapshots, size⟩ := gone.snapshots
  obtain ⟨out, handed⟩ := gone.handed
  -- the snapshot is still the one that its number names
  have found : (start.run aside).snapshots[before.snapshots.length]? =
      some start.file.snapshot := by
    have taken : start.snapshots = before.snapshots ++ [start.file.snapshot] := rfl
    simp [snapshots, taken]
  have returned : again = { start.run aside with
      file := (start.run aside).file.restore start.file.snapshot } := by
    simp only [again, after_restore, found]
  have both : Replays start.snapshots.length (aside.count .snapshot) before.handed out
      start again := by
    rw [returned]
    exact ⟨alike_restore gone.order gone.allocatable start.file.snapshot,
      ⟨start.snapshots, [], late, by simp, by simp [snapshots], rfl, size⟩, [], rfl, handed⟩
  obtain ⟨answered, final⟩ := both.run later
  obtain ⟨out', there, here⟩ := final.handed
  have whole := (come.trans gone).trans ((grows_after (start.run aside)
    (.restore before.snapshots.length)).trans (grows_run again replayed))
  have kept : (again.run replayed).Logged := whole.logged (logged_new general float)
  refine ⟨both.file.occupancy, answered, out, out', handed, there, fun candidates => ?_,
    fun inRange r mem => ?_, ?_⟩
  · apply List.filter_congr
    intro r _
    rw [kept.touched, here]
    simp only [List.mem_append]
    congr 2
    exact propext (by tauto)
  · have listed : r ∈ (again.run replayed).handed := by
      rw [here]
      simp only [List.mem_append]
      tauto
    exact (whole.fits (fits_new inRange)).handed r listed
  · rw [kept.served, here]
    simp only [List.length_append]
    omega

end History

end NativeExpr.RegisterFile
