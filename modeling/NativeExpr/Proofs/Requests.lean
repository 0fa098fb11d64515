import NativeExpr.Proofs.Occupancy

/-!
# Sequences of requests to a register file

A register file is asked for registers, told what becomes of them, and taken back to
snapshots of itself, in any order. Whatever the sequence, its tables agree with each other,
also where some of the requests fail: a request that fails changes nothing, and a snapshot
holds tables that agree.
-/
namespace NativeExpr

namespace RegisterFile

/-- A register file with the snapshots taken from it and the registers it handed out. -/
structure History where
  file : RegisterFile
  snapshots : List Occupancy
  handed : List Reg

/-- What a register file can be asked to do. A snapshot has the number of those taken before it. -/
inductive Request
  | allocate (c : RegClass) (owner : Owner) (preferred : Option Reg)
  | take (r : Reg) (owner : Owner)
  | reassign (r : Reg) (owner : Owner)
  | free (r : Reg)
  | lock (r : Reg)
  | unlock (r : Reg)
  | snapshot
  | restore (number : Nat)
  deriving DecidableEq, Repr

namespace Request

/-- Whether the register a request is about is one of the tables. A preference may be any. -/
def Valid : Request → Prop
  | take r _ | reassign r _ | free r | lock r | unlock r => r.Valid
  | allocate .. | snapshot | restore _ => True

instance (q : Request) : Decidable q.Valid := by
  cases q <;> unfold Valid <;> infer_instance

end Request

namespace History

def new (general float : List Reg) : History := ⟨.new general float, [], []⟩

variable {α : Type}

def onFile (m : EStateM RegisterError RegisterFile α) : EStateM RegisterError History α := fun h =>
  match m h.file with
  | .ok a f => .ok a { h with file := f }
  | .error e f => .error e { h with file := f }

def record (r : Reg) : EStateM RegisterError History Unit :=
  modify fun h => { h with handed := r :: h.handed }

end History

open History in
/-- Serves a request. There is nothing to do for a snapshot that was never taken. -/
def Request.perform : Request → EStateM RegisterError History (Option Allocation)
  | allocate c o preferred => do
    let a ← onFile (RegisterFile.allocate c o preferred)
    record a.reg
    return some a
  | take r o => do
    onFile (RegisterFile.take r o)
    record r
    return none
  | reassign r o => do
    onFile (RegisterFile.reassign r o)
    return none
  | free r => do
    onFile (RegisterFile.free r)
    return none
  | lock r => do
    onFile (RegisterFile.lock r)
    return none
  | unlock r => do
    onFile (RegisterFile.unlock r)
    return none
  | snapshot => do
    modify fun h => { h with snapshots := h.snapshots ++ [h.file.snapshot] }
    return none
  | restore number => do
    modify fun h =>
      match h.snapshots[number]? with
      | some s => { h with file := h.file.restore s }
      | none => h
    return none

namespace History

/-- The state after a request, served or not. -/
def after (h : History) (q : Request) : History :=
  match q.perform h with
  | .ok _ h' => h'
  | .error _ h' => h'

def run (h : History) (qs : List Request) : History := qs.foldl after h

/-- What a register file, each of its snapshots, and the record of registers handed out satisfy. -/
structure Sound (h : History) : Prop where
  file : h.file.Sound
  inside : h.file.ClocksInside
  handed_iff : ∀ r, h.file.touched.contains r = true ↔ r ∈ h.handed
  snapshots : ∀ s ∈ h.snapshots, (h.file.restore s).Sound ∧ (h.file.restore s).ClocksInside

variable {h : History} {f : RegisterFile} {r : Reg} {c : RegClass} {o : Owner}

theorem sound_new {general float : List Reg} (sorted : Sorted ⟨general, float⟩) :
    (new general float).Sound where
  file := RegisterFile.sound_new sorted
  inside := clocksInside_new general float
  handed_iff := fun r => by simp [new, RegisterFile.new]
  snapshots := nofun

/-! ## One request -/

theorem yields_onFile {m : EStateM RegisterError RegisterFile α}
    {post : α → History → Prop} {fails : RegisterError → History → Prop}
    (hm : Yields m h.file (fun a f => post a { h with file := f })
      fun e f => fails e { h with file := f }) :
    Yields (onFile m) h post fails := by
  unfold Yields onFile at *
  cases hr : m h.file with
  | ok a f => rwa [hr] at hm
  | error e f => rwa [hr] at hm

/-- Snapshots stay good for a register file of the same orders that has handed out no less. -/
theorem Sound.replace (sound : h.Sound) {handed : List Reg} (file : f.Sound)
    (inside : f.ClocksInside) (order : f.order = h.file.order)
    (allocatable : f.allocatable = h.file.allocatable)
    (touched : ∀ {q}, h.file.touched.contains q = true → f.touched.contains q = true)
    (handed_iff : ∀ r, f.touched.contains r = true ↔ r ∈ handed) :
    ({ h with file := f, handed := handed } : History).Sound where
  file := file
  inside := inside
  handed_iff := handed_iff
  snapshots := fun s hs => by
    obtain ⟨sound, inside⟩ := sound.snapshots s hs
    refine ⟨sound.restore order allocatable touched, fun d => ?_⟩
    have inside := inside d
    show s.clock.get d < (f.order.get d).length ∨ f.order.get d = [] ∧ s.clock.get d = 0
    rwa [order]

theorem Sound.adjust (sound : h.Sound) {owner : Option Owner} {locks : Nat}
    (adjusted : h.file.Adjusted r owner locks h.file.touched f) :
    ({ h with file := f } : History).Sound ∧ f.order = h.file.order :=
  ⟨sound.replace adjusted.sound (sound.inside.of_eq adjusted.clock adjusted.changed.order)
    adjusted.changed.order adjusted.changed.allocatable adjusted.changed.touched_le
    fun r => by rw [adjusted.touched, sound.handed_iff], adjusted.changed.order⟩

theorem Sound.handOut (sound : h.Sound) (hr : r.Valid) (file : f.Sound)
    (inside : f.ClocksInside) {owner : Option Owner} {locks : Nat}
    (changed : h.file.Changed r owner locks f) (touched : f.touched = h.file.touched.insert r) :
    ({ h with file := f, handed := r :: h.handed } : History).Sound ∧
      f.order = h.file.order := by
  refine ⟨sound.replace file inside changed.order changed.allocatable changed.touched_le
    fun q => ?_, changed.order⟩
  rw [touched, contains_insert_eq _ hr, List.mem_cons, ← sound.handed_iff]
  split
  · next he => exact iff_of_true rfl (.inl he)
  · next he => rw [or_iff_right he]

/-- A request keeps the tables sound and the orders as they are, and one that fails changes
nothing. -/
theorem Sound.perform (sound : h.Sound) {q : Request} (valid : q.Valid) :
    Yields q.perform h (fun _ h' => h'.Sound ∧ h'.file.order = h.file.order)
      fun _ h' => h' = h := by
  -- what the requests about one register in use have in common
  have inUse {r : Reg} {m : EStateM RegisterError RegisterFile Unit} {owner : Option Owner}
      {locks : Nat} {admitted refused : Prop} (hm : Yields m h.file
        (fun _ f => admitted ∧ h.file.Adjusted r owner locks h.file.touched f)
        fun _ f => f = h.file ∧ refused) :
      Yields (do onFile m; return (none : Option Allocation)) h
        (fun _ h' => h'.Sound ∧ h'.file.order = h.file.order) fun _ h' => h' = h :=
    .bind (yields_onFile (hm.mono (fun _ _ done => sound.adjust done.2)
      fun _ _ refused => by rw [refused.1]))
  cases q with
  | allocate c o preferred =>
    refine .bind (yields_onFile ((sound.file.yields_allocate c o preferred).mono
      (fun a f out => ?_) fun _ f full => ?_))
    · exact .bind (.of_modify (.of_pure (sound.handOut (sound.file.valid_of_mem out.mem) out.sound
        (out.inside sound.inside) out.changed out.touched)))
    · rw [full.1 sound.inside]
  | take r o =>
    refine .bind (yields_onFile ((sound.file.yields_take valid o).mono
      (fun _ f done => ?_) fun _ _ refused => ?_))
    · obtain ⟨-, -, adjusted⟩ := done
      exact .bind (.of_modify (.of_pure (sound.handOut valid adjusted.sound
        (sound.inside.of_eq adjusted.clock adjusted.changed.order) adjusted.changed
        adjusted.touched)))
    · rw [refused.1]
  | reassign r o => exact inUse (sound.file.yields_reassign valid o)
  | free r => exact inUse (sound.file.yields_free valid)
  | lock r => exact inUse (sound.file.yields_lock valid)
  | unlock r => exact inUse (sound.file.yields_unlock valid)
  | snapshot =>
    refine .bind (.of_modify (.of_pure ⟨⟨sound.file, sound.inside, sound.handed_iff, ?_⟩, rfl⟩))
    intro s hs
    rcases List.mem_append.1 hs with hs | hs
    · exact sound.snapshots s hs
    · rw [List.mem_singleton.1 hs]
      exact ⟨sound.file, sound.inside⟩
  | restore number =>
    refine .bind (.of_modify (.of_pure ?_))
    split
    · next s hs =>
      obtain ⟨file, inside⟩ := sound.snapshots s (List.mem_of_getElem? hs)
      exact ⟨sound.replace file inside rfl rfl id sound.handed_iff, rfl⟩
    · exact ⟨sound, rfl⟩

/-! ## Sequences -/

theorem Sound.step (sound : h.Sound) {q : Request} (valid : q.Valid) :
    (h.after q).Sound ∧ (h.after q).file.order = h.file.order := by
  have step := sound.perform valid
  unfold History.after
  split
  · next served => exact step.ok served
  · next failed =>
    rw [step.error failed]
    exact ⟨sound, rfl⟩

theorem Sound.after (sound : h.Sound) {q : Request} (valid : q.Valid) : (h.after q).Sound :=
  (sound.step valid).1

theorem Sound.run (sound : h.Sound) {qs : List Request} (valid : ∀ q ∈ qs, q.Valid) :
    (h.run qs).Sound := by
  induction qs generalizing h with
  | nil => exact sound
  | cons q qs ih =>
    exact ih (sound.after (valid q (List.mem_cons_self ..)))
      fun q hq => valid q (List.mem_cons_of_mem _ hq)

/-! ## Locks -/

/-- Whether the register file and its snapshots have at most so many locks on a register. -/
def LocksWithin (r : Reg) (n : Nat) (h : History) : Prop :=
  h.file.lockCount r ≤ n ∧ ∀ s ∈ h.snapshots, (h.file.restore s).lockCount r ≤ n

theorem LocksWithin.changed {n n' locks : Nat} {p : Reg} {owner : Option Owner}
    (within : LocksWithin r n h) (hr : r.Valid) (changed : h.file.Changed p owner locks f)
    (more : n ≤ n') (le : p = r → locks ≤ n') (handed : List Reg) :
    LocksWithin r n' { h with file := f, handed := handed } := by
  refine ⟨?_, fun s hs => Nat.le_trans (within.2 s hs) more⟩
  show f.lockCount r ≤ n'
  rw [changed.lockCount_eq hr]
  split
  · next same => exact le same.symm
  · exact Nat.le_trans within.1 more

/-- A request puts at most one lock on a register, and only if it asks for one. -/
theorem Sound.perform_locks (sound : h.Sound) {q : Request} (valid : q.Valid) (hr : r.Valid)
    {n : Nat} (within : LocksWithin r n h) :
    Yields q.perform h (fun _ h' => LocksWithin r (n + if q = .lock r then 1 else 0) h')
      fun _ h' => h' = h := by
  -- what the requests about one register in use have in common
  have inUse {p : Reg} {m : EStateM RegisterError RegisterFile Unit} {owner : Option Owner}
      {locks n' : Nat} {admitted refused : Prop} (hm : Yields m h.file
        (fun _ f => admitted ∧ h.file.Adjusted p owner locks h.file.touched f)
        fun _ f => f = h.file ∧ refused) (more : n ≤ n') (le : p = r → locks ≤ n') :
      Yields (do onFile m; return (none : Option Allocation)) h
        (fun _ h' => LocksWithin r n' h') fun _ h' => h' = h :=
    .bind (yields_onFile (hm.mono
      (fun _ _ done => within.changed hr done.2.changed more le h.handed)
      fun _ _ refused => by rw [refused.1]))
  cases q with
  | allocate c o preferred =>
    exact .bind (yields_onFile ((sound.file.yields_allocate c o preferred).mono
      (fun _ _ out => .bind (.of_modify (.of_pure
        (within.changed hr out.changed (Nat.le_add_right ..) (fun _ => Nat.zero_le _) _))))
      fun _ _ full => by rw [full.1 sound.inside]))
  | take p o =>
    exact .bind (yields_onFile ((sound.file.yields_take valid o).mono
      (fun _ _ done => .bind (.of_modify (.of_pure
        (within.changed hr done.2.2.changed (Nat.le_add_right ..) (fun _ => Nat.zero_le _) _))))
      fun _ _ refused => by rw [refused.1]))
  | reassign p o =>
    exact inUse (sound.file.yields_reassign valid o) (Nat.le_add_right ..)
      fun same => same ▸ within.1
  | free p =>
    exact inUse (sound.file.yields_free valid) (Nat.le_add_right ..) fun _ => Nat.zero_le _
  | lock p =>
    refine inUse (sound.file.yields_lock valid) (Nat.le_add_right ..) fun same => ?_
    rw [if_pos (congrArg Request.lock same), same]
    exact Nat.succ_le_succ within.1
  | unlock p =>
    exact inUse (sound.file.yields_unlock valid) (Nat.le_add_right ..)
      fun same => Nat.le_trans (Nat.sub_le ..) (same ▸ within.1)
  | snapshot =>
    refine .bind (.of_modify (.of_pure ⟨within.1, fun s hs => ?_⟩))
    rcases List.mem_append.1 hs with hs | hs
    · exact within.2 s hs
    · rw [List.mem_singleton.1 hs]
      exact within.1
  | restore number =>
    refine .bind (.of_modify (.of_pure ?_))
    cases hs : h.snapshots[number]? with
    | some s => exact ⟨within.2 s (List.mem_of_getElem? hs), within.2⟩
    | none => exact within

/-- A register has at most as many locks on it as were asked for. Fewer than 256 fit a byte. -/
theorem lockCount_run_le {general float : List Reg} (sorted : Sorted ⟨general, float⟩)
    {qs : List Request} (valid : ∀ q ∈ qs, q.Valid) (hr : r.Valid) :
    ((new general float).run qs).file.lockCount r ≤ qs.count (.lock r) := by
  suffices all : ∀ {h : History} {n : Nat}, h.Sound → LocksWithin r n h →
      LocksWithin r (n + qs.count (.lock r)) (h.run qs) by
    have none : LocksWithin r 0 (new general float) :=
      ⟨Nat.le_of_eq (lockCount_new general float r), nofun⟩
    exact Nat.le_trans (all (sound_new sorted) none).1 (Nat.le_of_eq (Nat.zero_add _))
  induction qs with
  | nil => exact fun _ within => within
  | cons q qs ih =>
    intro h n sound within
    have step := sound.perform_locks (valid q (List.mem_cons_self ..)) hr within
    have after : LocksWithin r (n + if q = .lock r then 1 else 0) (h.after q) := by
      unfold History.after
      cases performed : q.perform h with
      | ok _ h' => exact step.ok performed
      | error _ h' =>
        rw [step.error performed]
        exact ⟨Nat.le_add_right_of_le within.1,
          fun s hs => Nat.le_add_right_of_le (within.2 s hs)⟩
    have rest := ih (fun q hq => valid q (List.mem_cons_of_mem _ hq))
      (sound.after (valid q (List.mem_cons_self ..))) after
    rw [List.count_cons, Nat.add_comm (qs.count _), ← Nat.add_assoc]
    simp only [beq_iff_eq]
    exact rest

/-- The tables of a register file, its clocks and the record of what it handed out agree. -/
structure Consistent (h : History) : Prop where
  allocated_iff : ∀ {r}, r.Valid → (h.file.isAllocated r = true ↔ h.file.owner r ≠ none)
  allocatable : ∀ {r}, r.Valid → h.file.isAllocated r = true → h.file.isAllocatable r = true
  locked_iff : ∀ {r}, r.Valid → (h.file.isLocked r = true ↔ 0 < h.file.lockCount r)
  allocated_of_locked : ∀ {r}, r.Valid → h.file.isLocked r = true → h.file.isAllocated r = true
  touched_iff : ∀ r, h.file.touched.contains r = true ↔ r ∈ h.handed
  clocks : h.file.ClocksInside

theorem Sound.consistent (sound : h.Sound) : h.Consistent where
  allocated_iff := sound.file.used_iff
  allocatable := fun hr used =>
    (sound.file.allocatable_iff hr).2 (sound.file.owned_mem hr ((sound.file.used_iff hr).1 used))
  locked_iff := sound.file.fixed_iff
  allocated_of_locked := fun hr locked =>
    (sound.file.used_iff hr).2 (sound.file.owned_of_locked hr ((sound.file.fixed_iff hr).1 locked))
  touched_iff := sound.handed_iff
  clocks := sound.inside

/-- Two states agree in the registers of all classes but one, and in the clocks of those. -/
structure AgreesOutside (c : RegClass) (h h' : History) : Prop where
  owner_eq : ∀ {r}, r.Valid → r.regClass ≠ c → h'.file.owner r = h.file.owner r
  lockCount_eq : ∀ {r}, r.Valid → r.regClass ≠ c → h'.file.lockCount r = h.file.lockCount r
  allocated_eq : ∀ {r}, r.Valid → r.regClass ≠ c → h'.file.isAllocated r = h.file.isAllocated r
  locked_eq : ∀ {r}, r.Valid → r.regClass ≠ c → h'.file.isLocked r = h.file.isLocked r
  touched_eq : ∀ {r}, r.Valid → r.regClass ≠ c →
    h'.file.touched.contains r = h.file.touched.contains r
  clock_eq : ∀ d, d ≠ c → h'.file.clock.get d = h.file.clock.get d

theorem Sound.agreesOutside (sound : h.Sound) {a : Allocation} {handed : List Reg}
    (out : h.file.HandedOut c o a f) :
    AgreesOutside c h { h with file := f, handed := handed } := by
  have apart {r : Reg} (other : r.regClass ≠ c) : r ≠ a.reg := fun same =>
    other (same ▸ (sound.file.sorted out.mem).2)
  exact {
    owner_eq := fun hr other => (out.changed.owner_eq hr).trans (if_neg (apart other))
    lockCount_eq := fun hr other => (out.changed.lockCount_eq hr).trans (if_neg (apart other))
    allocated_eq := fun _ other => (out.changed.used_eq _).trans (if_neg (apart other))
    locked_eq := fun _ other => (out.changed.fixed_eq _).trans (if_neg (apart other))
    touched_eq := fun _ other => by
      show f.touched.contains _ = _
      rw [out.touched, contains_insert_eq _ (sound.file.valid_of_mem out.mem),
        if_neg (apart other)]
    clock_eq := out.clock }

theorem Sound.perform_allocate (sound : h.Sound) (c : RegClass) (o : Owner)
    (preferred : Option Reg) :
    Yields (Request.allocate c o preferred).perform h (fun _ h' => AgreesOutside c h h')
      fun _ h' => h' = h :=
  .bind (yields_onFile ((sound.file.yields_allocate c o preferred).mono
    (fun _ _ out => .bind (.of_modify (.of_pure (sound.agreesOutside out))))
    fun _ _ full => by rw [full.1 sound.inside]))

/-- After any sequence of requests the tables of a register file agree; the next request, if it
fails, changes nothing, and if it asks for a register of a class, it changes only that class.
The locks of a register have no bound here; a byte is enough for the count where fewer than 256
were asked for, as `lockCount_run_le` says. -/
theorem consistent_run {general float : List Reg} (sorted : Sorted ⟨general, float⟩)
    {qs : List Request} (valid : ∀ q ∈ qs, q.Valid) :
    ((new general float).run qs).Consistent ∧
      (∀ q : Request, q.Valid → ∀ e h', q.perform ((new general float).run qs) = .error e h' →
        h' = (new general float).run qs) ∧
      ∀ c o preferred a h',
        (Request.allocate c o preferred).perform ((new general float).run qs) = .ok a h' →
          AgreesOutside c ((new general float).run qs) h' := by
  have sound := (sound_new sorted).run valid
  refine ⟨sound.consistent, fun q valid e h' failed => ?_, fun c o preferred a h' served => ?_⟩
  · exact (sound.perform valid).error failed
  · exact (sound.perform_allocate c o preferred).ok served

/-- Two values fill the general registers, one of them locked; a third evicts the other, and
the file goes back to the state before. -/
def evicting : List Request :=
  [.allocate .general (.value 0) none, .allocate .general (.value 1) (some (.gp 3)),
    .lock (.gp 0), .snapshot, .allocate .general (.value 2) none, .free (.gp 1),
    .unlock (.gp 3), .restore 0, .take (.xmm 0) .temp]

theorem consistent_run_evicting :
    Sorted ⟨[.gp 0, .gp 3], [.xmm 0]⟩ ∧ (∀ q ∈ evicting, q.Valid) ∧
      ((new [.gp 0, .gp 3] [.xmm 0]).run evicting).Consistent ∧
      ((new [.gp 0, .gp 3] [.xmm 0]).run evicting).handed =
        [.xmm 0, .gp 3, .gp 3, .gp 0] := by
  have sorted : Sorted ⟨[.gp 0, .gp 3], [.xmm 0]⟩ := by
    rintro (_ | _) r hr
    · exact (by decide : ∀ r ∈ [Reg.gp 0, Reg.gp 3], r.Valid ∧ r.regClass = .general) r hr
    · exact (by decide : ∀ r ∈ [Reg.xmm 0], r.Valid ∧ r.regClass = .float) r hr
  have valid : ∀ q ∈ evicting, q.Valid := by decide
  exact ⟨sorted, valid, (consistent_run sorted valid).1, by decide⟩

end History

end RegisterFile

end NativeExpr
