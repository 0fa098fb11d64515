import NativeExpr.Lowering.Function
import NativeExpr.Proofs.Assembling
import NativeExpr.Proofs.Lowering.Tables

/-!
# Lowering two graphs at once

Two graphs that agree in the nodes that matter are lowered in step: the code, the
registers, the frame and the counters of both are the same at every point, and so is what the
tables tell of every node. The larger graph may have a longer table; its additional
entries are never used. Here are the states so related and the operations on them.
-/
namespace NativeExpr

open X64 Buffered

/-! ## Tables -/

namespace ValueTable

/-- A table of known nodes, and one that tells the same of them and may be longer. -/
structure Covers (Known : NodeId → Prop) (t t' : ValueTable) : Prop where
  size_le : t.size ≤ t'.size
  inside : ∀ id, Known id → id < t'.size → id < t.size
  known : ∀ id, id < t.size → Known id
  entry_eq : ∀ id, t'.entry id = t.entry id

variable {Known : NodeId → Prop} {t t' : ValueTable}

theorem Covers.update (h : t.Covers Known t') {id : NodeId} (hid : Known id)
    (f : Assignment → Assignment) : (t.update id f).Covers Known (t'.update id f) where
  size_le := by
    rw [size_update, size_update]
    exact h.size_le
  inside := by
    rw [size_update, size_update]
    exact h.inside
  known := by
    rw [size_update]
    exact h.known
  entry_eq := fun x => by
    by_cases inside : id < t.size
    · rw [entry_update _ inside, entry_update _ (Nat.lt_of_lt_of_le inside h.size_le), h.entry_eq,
        h.entry_eq]
    · have outside : ¬ id < t'.size := fun lt => inside (h.inside id hid lt)
      have same {t : ValueTable} (outside : ¬ id < t.size) : t.update id f = t := by
        rw [ValueTable.update, Array.modify, Array.modifyM]
        simp [outside]
      rw [same inside, same outside, h.entry_eq]

theorem Covers.remainingUses_eq (h : t.Covers Known t') :
    Lowering.remainingUses t' = Lowering.remainingUses t := by
  funext id
  rw [Lowering.remainingUses, Lowering.remainingUses, h.entry_eq]

theorem Covers.unused (h : t.Covers Known t') {id : NodeId} (outside : t.size ≤ id) :
    t'.entry id = .unused := (h.entry_eq id).trans (entry_of_le outside)

end ValueTable

/-! ## Registers -/

namespace RegisterFile

variable {Known : NodeId → Prop} {f : RegisterFile} {o : Owner} {r : Reg}

/-- Whether an owner is a temporary or a known value. -/
def Admissible (Known : NodeId → Prop) (o : Owner) : Prop := ∀ v, o = .value v → Known v

theorem admissible_temp : Admissible Known .temp := nofun

theorem admissible_value {id : NodeId} (h : Known id) : Admissible Known (.value id) := by
  rintro v ⟨⟩
  exact h

def Holds (Known : NodeId → Prop) (owners : Array (Option Owner)) : Prop :=
  ∀ o, some o ∈ owners → Admissible Known o

theorem holds_new (general float : List Reg) : Holds Known (new general float).owners := by
  intro o ho
  cases Array.eq_of_mem_replicate ho

theorem Holds.set {owners : Array (Option Owner)} (h : Holds Known owners) (i : Nat)
    {x : Option Owner} (hx : ∀ o, x = some o → Admissible Known o) :
    Holds Known (owners.setIfInBounds i x) := fun o ho =>
  (Array.mem_or_eq_of_mem_setIfInBounds ho).elim (h o) fun same => hx o same.symm

theorem Holds.owner (h : Holds Known f.owners) (ho : f.owner r = some o) : Admissible Known o := by
  refine h o ?_
  rw [RegisterFile.owner, Option.join_eq_some_iff] at ho
  exact Array.mem_of_getElem? ho

theorem yields_allocate (h : Holds Known f.owners) (ho : Admissible Known o) (c : RegClass)
    (preferred : Option Reg) :
    Yields (allocate c o preferred) f
      (fun a f' => Holds Known f'.owners ∧ ∀ v, a.evicted = some v → Known v) fun _ _ => True := by
  have assigned (r : Reg) : Holds Known (f.owners.setIfInBounds r.linearIndex (some o)) :=
    h.set _ fun _ same => Option.some.inj same ▸ ho
  unfold allocate
  refine .bind (.of_get ?_)
  dsimp only
  split
  · exact .bind (.of_set (.of_pure ⟨assigned _, nofun⟩))
  · generalize f.sweep (f.order.get c) (f.clock.get c) (f.order.get c).length = found
    obtain ⟨victim, hand⟩ := found
    cases victim with
    | none => exact .bind (.of_set (.of_throw trivial))
    | some r =>
      refine .bind (.of_set (.of_pure ⟨assigned _, fun v hv => ?_⟩))
      obtain ⟨o, ho, value⟩ := Option.bind_eq_some_iff.1 hv
      cases o with
      | temp => cases value
      | value w =>
        obtain rfl : w = v := Option.some.inj value
        exact h.owner ho w rfl

theorem yields_ifUsed {g : RegisterFile → RegisterFile} (hg : Holds Known (g f).owners) :
    Yields (do
        let f ← get
        unless f.used.contains r do throw (.notAllocated r)
        set (g f) : EStateM RegisterError RegisterFile Unit) f
      (fun _ f' => Holds Known f'.owners ∧ Whatever ()) fun _ _ => True := by
  refine .bind (.of_get ?_)
  cases f.used.contains r with
  | false => exact .bind (.of_throw trivial)
  | true => exact .bind (.of_pure (.of_set ⟨hg, trivial⟩))

theorem yields_reassign (h : Holds Known f.owners) (ho : Admissible Known o) :
    Yields (reassign r o) f (fun _ f' => Holds Known f'.owners ∧ Whatever ()) fun _ _ => True :=
  yields_ifUsed (h.set _ fun _ same => Option.some.inj same ▸ ho)

theorem yields_free (h : Holds Known f.owners) :
    Yields (free r) f (fun _ f' => Holds Known f'.owners ∧ Whatever ()) fun _ _ => True :=
  yields_ifUsed (h.set _ nofun)

theorem yields_lock (h : Holds Known f.owners) :
    Yields (lock r) f (fun _ f' => Holds Known f'.owners ∧ Whatever ()) fun _ _ => True :=
  yields_ifUsed h

theorem yields_unlock (h : Holds Known f.owners) :
    Yields (RegisterFile.unlock r) f (fun _ f' => Holds Known f'.owners ∧ Whatever ())
      fun _ _ => True := by
  refine .bind (.of_get ?_)
  split
  · exact .of_set ⟨h, trivial⟩
  · exact .of_throw trivial

theorem yields_take (h : Holds Known f.owners) (ho : Admissible Known o) :
    Yields (take r o) f (fun _ f' => Holds Known f'.owners ∧ Whatever ()) fun _ _ => True := by
  refine .bind (.of_get ?_)
  cases f.allocatable.contains r with
  | false => exact .bind (.of_throw trivial)
  | true =>
    refine .bind (.of_pure ?_)
    cases f.used.contains r with
    | true => exact .bind (.of_throw trivial)
    | false =>
      exact .bind (.of_pure (.of_set ⟨h.set _ fun _ same => Option.some.inj same ▸ ho, trivial⟩))

end RegisterFile

namespace Graph

variable {g : Graph} {id : NodeId} {e : CompileError}

theorem not_overflow_node (h : g.node id = .error e) : ¬ e.IsOverflow := by
  unfold node at h
  split at h <;> cases h
  exact not_false

theorem not_overflow_typeOf (h : g.typeOf id = .error e) : ¬ e.IsOverflow := by
  cases hn : g.node id with
  | ok n =>
    rw [typeOf, hn] at h
    cases h
  | error e' =>
    rw [typeOf, hn] at h
    cases h
    exact not_overflow_node hn

end Graph

namespace Lowering

/-- Two contexts that do not differ in what is known. -/
structure Context.Kindred (Known : NodeId → Prop) (ctx ctx' : Context) : Prop where
  root : ctx'.root = ctx.root
  fuse : ctx'.fuse = ctx.fuse
  node : ∀ {id}, Known id → ctx'.graph.node id = ctx.graph.node id
  operands : ∀ {id n}, Known id → ctx.graph.node id = .ok n → ∀ x ∈ n.operands, Known x
  shared : ∀ {a b}, Known a → Known b → ∀ remaining,
    sharedNodes ctx'.graph remaining a b = sharedNodes ctx.graph remaining a b ∧
      ∀ x ∈ sharedNodes ctx.graph remaining a b, Known x
  incoming : ∀ {t t'}, ValueTable.Covers Known t t' →
    incoming ctx'.graph t' = incoming ctx.graph t ∧ ∀ p ∈ incoming ctx.graph t, Known p.id

/-- Two states that do not differ in what is known, with an assembler of some property. -/
structure Twin (Known : NodeId → Prop) (I : Assembler → Prop) (s s' : State) : Prop where
  asm : s'.asm = s.asm
  regs : s'.regs = s.regs
  frame : s'.frame = s.frame
  stats : s'.stats = s.stats
  values : s.values.Covers Known s'.values
  held : RegisterFile.Holds Known s.regs.owners
  assembled : I s.asm

variable {α : Type} {Known : NodeId → Prop} {I : Assembler → Prop}
variable {ctx ctx' : Context} {id : NodeId}

abbrev Everything (_ : NodeId) : Prop := True

theorem Context.Kindred.refl (ctx : Context) : ctx.Kindred Everything ctx where
  root := rfl
  fuse := rfl
  node := fun _ => rfl
  operands := fun _ _ _ _ => trivial
  shared := fun _ _ _ => ⟨rfl, fun _ _ => trivial⟩
  incoming := fun {t t'} covers => by
    have same : t' = t := by
      refine Array.ext (Nat.le_antisymm (Nat.not_lt.1 fun lt => ?_) covers.size_le)
        fun i hi hi' => ?_
      · exact Nat.lt_irrefl _ (covers.inside t.size trivial lt)
      · have entry := covers.entry_eq i
        rwa [ValueTable.entry, ValueTable.entry, Array.getD_eq_getD_getElem?,
          Array.getD_eq_getD_getElem?, Array.getElem?_eq_getElem hi, Array.getElem?_eq_getElem hi']
          at entry
    rw [same]
    exact ⟨rfl, fun _ _ => trivial⟩

theorem Twin.refl {s : State} (h : I s.asm) : Twin Everything I s s where
  asm := rfl
  regs := rfl
  frame := rfl
  stats := rfl
  values := ⟨Nat.le_refl _, fun _ _ lt => lt, fun _ _ => trivial, fun _ => rfl⟩
  held := fun _ _ _ _ => trivial
  assembled := h

/-! ## Parts of the state -/

theorem emit_ok {m : Asm α} {s : State} {x : α} {asm : Assembler} (h : m s.asm = .ok x asm) :
    emit m s = .ok x { s with asm } := by
  cases s
  simp only [emit, h]

theorem emit_error {m : Asm α} {s : State} {e : CompileError} {asm : Assembler}
    (h : m s.asm = .error e asm) : emit m s = .error e { s with asm } := by
  cases s
  simp only [emit, h]

theorem onRegs_ok {m : EStateM RegisterError RegisterFile α} {s : State} {x : α}
    {regs : RegisterFile} (h : m s.regs = .ok x regs) : onRegs m s = .ok x { s with regs } := by
  cases s
  simp only [onRegs, h]

theorem onRegs_error {m : EStateM RegisterError RegisterFile α} {s : State} {e : RegisterError}
    {regs : RegisterFile} (h : m s.regs = .error e regs) :
    onRegs m s = .error (.registerAllocation (.file e)) { s with regs } := by
  cases s
  simp only [onRegs, h]

theorem inStep_emit {m : Asm α} {P : α → Prop} (h : InStep (Assembler.Same I) P m m) :
    InStep (Twin Known I) P (emit m) (emit m) := by
  refine ⟨fun s s' twin => ?_⟩
  have same (capacity : Nat) : m (within s'.asm capacity) = m (within s.asm capacity) := by
    rw [twin.asm]
  have overflow {capacity room : Nat}
      (h : Overflow capacity room (m (within s.asm capacity)) (m (within s.asm capacity))) :
      Overflow capacity room (emit m (within s capacity)) (emit m (within s' capacity)) := by
    obtain ⟨requested, more, enough, u, u', h, h'⟩ := h
    exact ⟨requested, more, enough, _, _, emit_error h,
      emit_error (s := within s' capacity) ((same capacity).trans h')⟩
  cases h.at_ s.asm s.asm ⟨rfl, twin.assembled⟩ with
  | ok x t t' room holds size fits full =>
    obtain ⟨⟨rfl, kept⟩, hx⟩ := holds
    refine .ok x { s with asm := t' } { s' with asm := t' } room
      ⟨⟨rfl, twin.regs, twin.frame, twin.stats, twin.values, twin.held, kept⟩, hx⟩ size
      (fun capacity enough => ?_) fun capacity less => overflow (full capacity less)
    obtain ⟨h, h'⟩ := fits capacity enough
    exact ⟨emit_ok h, emit_ok (s := within s' capacity) ((same capacity).trans h')⟩
  | error e t t' room cause fits full =>
    refine .error e { s with asm := t } { s' with asm := t' } room cause
      (fun capacity enough => ?_) fun capacity less => overflow (full capacity less)
    obtain ⟨h, h'⟩ := fits capacity enough
    exact ⟨emit_error h, emit_error (s := within s' capacity) ((same capacity).trans h')⟩

theorem inStep_onRegs {m : EStateM RegisterError RegisterFile α} {P : α → Prop}
    (h : ∀ f : RegisterFile, RegisterFile.Holds Known f.owners →
      Yields m f (fun x f' => RegisterFile.Holds Known f'.owners ∧ P x) fun _ _ => True) :
    InStep (Twin Known I) P (onRegs m) (onRegs m) := by
  refine ⟨fun s s' twin => ?_⟩
  cases hm : m s.regs with
  | ok x regs =>
    obtain ⟨held, hx⟩ := (h s.regs twin.held).ok hm
    exact .ok x { s with regs } { s' with regs } 0
      ⟨⟨twin.asm, rfl, twin.frame, twin.stats, twin.values, held, twin.assembled⟩, hx⟩
      (Nat.max_zero _).symm
      (fun capacity _ => ⟨onRegs_ok (s := within s capacity) hm,
        onRegs_ok (s := within s' capacity) (twin.regs ▸ hm)⟩)
      fun _ h => absurd h (Nat.not_lt_zero _)
  | error e regs =>
    exact .error (.registerAllocation (.file e)) { s with regs } { s' with regs } 0 not_false
      (fun capacity _ => ⟨onRegs_error (s := within s capacity) hm,
        onRegs_error (s := within s' capacity) (twin.regs ▸ hm)⟩)
      fun _ h => absurd h (Nat.not_lt_zero _)

theorem inStep_modifyValues {f f' : ValueTable → ValueTable}
    (h : ∀ t t', t.Covers Known t' → (f t).Covers Known (f' t')) :
    InStep (Twin Known I) Whatever (modifyValues f) (modifyValues f') :=
  .of_modify (fun _ _ twin => ⟨twin.asm, twin.regs, twin.frame, twin.stats, h _ _ twin.values,
    twin.held, twin.assembled⟩) (fun _ => rfl) (fun _ _ => rfl) fun _ _ => rfl

theorem inStep_modifyStats (f : CodeStats → CodeStats) :
    InStep (Twin Known I) Whatever (modifyStats f) (modifyStats f) :=
  .of_modify (fun _ _ twin => ⟨twin.asm, twin.regs, twin.frame, congrArg f twin.stats, twin.values,
    twin.held, twin.assembled⟩) (fun _ => rfl) (fun _ _ => rfl) fun _ _ => rfl

theorem inStep_note (n n' : Note) : InStep (Twin Known I) Whatever (note n) (note n') :=
  .of_modify (fun _ _ ⟨asm, regs, frame, stats, values, held, assembled⟩ =>
    ⟨asm, regs, frame, stats, values, held, assembled⟩) (fun _ => rfl) (fun _ _ => rfl)
    fun _ _ => rfl

theorem inStep_noteTables (n : Tables → Note) :
    InStep (Twin Known I) Whatever (noteTables n) (noteTables n) :=
  .of_modify (fun _ _ ⟨asm, regs, frame, stats, values, held, assembled⟩ =>
    ⟨asm, regs, frame, stats, values, held, assembled⟩) (fun _ => rfl) (fun _ _ => rfl)
    fun _ _ => rfl

theorem inStep_modifyFrame (f : Frame → Frame) :
    InStep (Twin Known I) Whatever
      (modify fun s => { s with frame := f s.frame } : Lower Unit)
      (modify fun s => { s with frame := f s.frame }) :=
  .of_modify (fun _ _ twin => ⟨twin.asm, twin.regs, congrArg f twin.frame, twin.stats, twin.values,
    twin.held, twin.assembled⟩) (fun _ => rfl) (fun _ _ => rfl) fun _ _ => rfl

theorem inStep_assignment (id : NodeId) :
    InStep (Twin Known I) Whatever (assignment id) (assignment id) :=
  .of_get (fun _ _ twin => twin.values.entry_eq id ▸ .of_pure trivial) (fun _ _ => rfl)
    fun _ _ => rfl

theorem inStep_owner (r : Reg) :
    InStep (Twin Known I) (fun o => ∀ o', o = some o' → RegisterFile.Admissible Known o')
      (owner r) (owner r) := by
  refine ⟨fun s s' twin => .of_get ?_ (fun _ => rfl) fun _ => rfl⟩
  rw [twin.regs]
  exact .of_pure ⟨twin, fun _ ho => twin.held.owner ho⟩

theorem inStep_setStorage (hid : Known id) (storage : Storage) :
    InStep (Twin Known I) Whatever (setStorage id storage) (setStorage id storage) :=
  inStep_modifyValues fun _ _ covers => covers.update hid _

theorem inStep_removeUse (hid : Known id) :
    InStep (Twin Known I) Whatever (removeUse id) (removeUse id) :=
  .bind (inStep_assignment id) fun _ _ => .bind (inStep_note _ _) fun _ _ =>
    inStep_modifyValues fun _ _ covers => covers.update hid _

theorem inStep_node (kin : ctx.Kindred Known ctx') (hid : Known id) :
    InStep (Twin Known I) (fun n => ctx.graph.node id = .ok n)
      (liftM (ctx.graph.node id) : Lower Node) (liftM (ctx'.graph.node id)) :=
  kin.node hid ▸ .of_except (fun _ => Graph.not_overflow_node) fun _ h => h

theorem inStep_typeOf (kin : ctx.Kindred Known ctx') (hid : Known id) :
    InStep (Twin Known I) Whatever (liftM (ctx.graph.typeOf id) : Lower ScalarType)
      (liftM (ctx'.graph.typeOf id)) := by
  rw [Graph.typeOf, Graph.typeOf, kin.node hid]
  exact .of_except (fun _ => Graph.not_overflow_typeOf) fun _ _ => trivial

theorem inStep_take {r : Reg} {o : Owner} (ho : RegisterFile.Admissible Known o) :
    InStep (Twin Known I) Whatever (onRegs (RegisterFile.take r o))
      (onRegs (RegisterFile.take r o)) :=
  inStep_onRegs fun _ held => RegisterFile.yields_take held ho

theorem inStep_reassign {r : Reg} {o : Owner} (ho : RegisterFile.Admissible Known o) :
    InStep (Twin Known I) Whatever (onRegs (RegisterFile.reassign r o))
      (onRegs (RegisterFile.reassign r o)) :=
  inStep_onRegs fun _ held => RegisterFile.yields_reassign held ho

theorem inStep_free (r : Reg) : InStep (Twin Known I) Whatever (onRegs (RegisterFile.free r))
    (onRegs (RegisterFile.free r)) :=
  inStep_onRegs fun _ held => RegisterFile.yields_free held

theorem inStep_unlock (r : Option Reg) : InStep (Twin Known I) Whatever (unlock r) (unlock r) := by
  cases r with
  | none => exact .nothing
  | some r => exact inStep_onRegs fun _ held => RegisterFile.yields_unlock held

/-! ## Reading values -/

theorem inStep_spillSlot (hid : Known id) :
    InStep (Twin Known I) Whatever (spillSlot id) (spillSlot id) := by
  refine .bind (inStep_assignment id) fun a _ => ?_
  split
  · exact .of_pure trivial
  · refine .of_get (fun s s' twin => ?_) (fun _ _ => rfl) fun _ _ => rfl
    rw [twin.frame]
    exact .bind (inStep_modifyFrame _) fun _ _ => .bind
      (inStep_modifyValues fun _ _ covers => covers.update hid _) fun _ _ => .of_pure trivial

theorem inStep_storage (id : NodeId) :
    InStep (Twin Known I) Whatever (storage id) (storage id) := by
  refine .bind (inStep_assignment id) fun a _ => ?_
  split
  · exact .of_pure trivial
  · exact .of_throw not_false

theorem inStep_operand (id : NodeId) :
    InStep (Twin Known I) Whatever (operand id) (operand id) := by
  refine .bind (inStep_storage id) fun s _ => ?_
  split <;> exact .of_pure trivial

theorem inStep_isReusable (id : NodeId) :
    InStep (Twin Known I) Whatever (isReusable id) (isReusable id) :=
  .bind (inStep_assignment id) fun _ _ => .of_pure trivial

theorem inStep_isImmediate (id : NodeId) :
    InStep (Twin Known I) Whatever (isImmediate id) (isImmediate id) :=
  .bind (inStep_assignment id) fun _ _ => .of_pure trivial

theorem inStep_lockValue (id : NodeId) :
    InStep (Twin Known I) Whatever (lockValue id) (lockValue id) := by
  refine .bind (inStep_assignment id) fun a _ => ?_
  split
  · exact .of_pure trivial
  · exact .bind (inStep_owner _) fun _ _ =>
      .ite (.bind (inStep_onRegs fun _ held => RegisterFile.yields_lock held) fun _ _ =>
        .of_pure trivial) (.of_pure trivial)

theorem inStep_withLocked (id : NodeId) {m m' : Lower α} {P : α → Prop}
    (h : InStep (Twin Known I) P m m') :
    InStep (Twin Known I) P (withLocked id m) (withLocked id m') :=
  .bind (inStep_lockValue id) fun _ _ => .bind h fun _ hx =>
    .bind (inStep_unlock _) fun _ _ => .of_pure hx

/-- What is left to do for a value that was read for the last time. -/
theorem inStep_release (a : Assignment) (id : NodeId) :
    InStep (Twin Known I) Whatever
      (match a.register? with
        | some r => do if (← owner r) = some (.value id) then onRegs (RegisterFile.free r)
        | none => return)
      (match a.register? with
        | some r => do if (← owner r) = some (.value id) then onRegs (RegisterFile.free r)
        | none => return) := by
  split
  · exact .bind (inStep_owner _) fun _ _ => .ite (inStep_free _) .nothing
  · exact .nothing

theorem inStep_consume (hid : Known id) :
    InStep (Twin Known I) Whatever (consume id) (consume id) :=
  .bind (inStep_removeUse hid) fun _ _ => .bind (inStep_assignment id) fun a _ =>
    .ite (inStep_release a id) .nothing

theorem inStep_define (hid : Known id) (r : Reg) :
    InStep (Twin Known I) Whatever (define id r) (define id r) :=
  .bind (inStep_reassign (RegisterFile.admissible_value hid)) fun _ _ => inStep_setStorage hid _

/-! ## Moving values -/

section

variable [Assembler.Steady I]

theorem inStep_plain {m : Asm Unit} (h : Assembler.Plain m) :
    InStep (Twin Known I) Whatever (emit m) (emit m) :=
  inStep_emit (Assembler.inStep_of_plain h)

theorem inStep_spill (hid : Known id) (r : Reg) :
    InStep (Twin Known I) Whatever (spill id r) (spill id r) := by
  refine .bind (inStep_spillSlot hid) fun slot _ => ?_
  have rest : InStep (Twin Known I) Whatever
      (do
        setStorage id (.stack slot)
        modifyStats fun s => { s with spills := s.spills + 1 })
      (do
        setStorage id (.stack slot)
        modifyStats fun s => { s with spills := s.spills + 1 }) :=
    .bind (inStep_setStorage hid _) fun _ _ => inStep_modifyStats _
  split
  · exact .bind (inStep_plain Assembler.plain_store) fun _ _ => rest
  · exact .bind (inStep_plain Assembler.plain_storeFloat) fun _ _ => rest

theorem inStep_alloc {o : Owner} (ho : RegisterFile.Admissible Known o) (c : RegClass)
    (preferred : Option Reg) :
    InStep (Twin Known I) Whatever (alloc c o preferred) (alloc c o preferred) := by
  refine .bind (inStep_onRegs fun _ held => RegisterFile.yields_allocate held ho c preferred)
    fun a known => ?_
  split
  · next victim evicted =>
      exact .bind (inStep_spill (known victim evicted) _) fun _ _ => .of_pure trivial
  · exact .of_pure trivial

theorem inStep_allocResult (kin : ctx.Kindred Known ctx') (id : NodeId) (c : RegClass) :
    InStep (Twin Known I) Whatever (allocResult ctx id c) (allocResult ctx' id c) := by
  rw [allocResult, allocResult, kin.root]
  exact inStep_alloc RegisterFile.admissible_temp _ _

theorem inStep_evict (r : Reg) : InStep (Twin Known I) Whatever (evict r) (evict r) := by
  refine .bind (inStep_owner r) fun o known => ?_
  split
  · exact .nothing
  · exact .of_throw not_false
  · next victim =>
    have hv : Known victim := known _ rfl victim rfl
    refine .of_get (fun s s' twin => ?_) (fun _ _ => rfl) fun _ _ => rfl
    rw [twin.regs]
    exact .ite (.of_throw not_false) (.bind (inStep_spill hv _) fun _ _ => inStep_free _)

theorem inStep_copyTo (dst : Reg) (ty : ScalarType) (src : Operand) :
    InStep (Twin Known I) Whatever (copyTo dst ty src) (copyTo dst ty src) := by
  unfold copyTo
  split
  · exact inStep_plain (Assembler.plain_movFloat _)
  · exact inStep_plain Assembler.plain_mov

theorem inStep_takeOrCopy (kin : ctx.Kindred Known ctx') (hid : Known id) (result : NodeId) :
    InStep (Twin Known I) Whatever (takeOrCopy ctx id result) (takeOrCopy ctx' id result) := by
  refine .bind (inStep_typeOf kin hid) fun ty _ => .bind (inStep_assignment id) fun a _ => ?_
  -- the register is found in the state, so what follows is settled for every register
  have rest (own : Option Reg) : InStep (Twin Known I) Whatever
      (match own with
        | some r => do
          onRegs (RegisterFile.reassign r .temp)
          removeUse id
          return r
        | none => do
          let r ← allocResult ctx result ty.regClass
          let src ← operand id
          copyTo r ty src
          consume id
          return r)
      (match own with
        | some r => do
          onRegs (RegisterFile.reassign r .temp)
          removeUse id
          return r
        | none => do
          let r ← allocResult ctx' result ty.regClass
          let src ← operand id
          copyTo r ty src
          consume id
          return r) := by
    cases own with
    | some r =>
      exact .bind (inStep_reassign RegisterFile.admissible_temp) fun _ _ =>
        .bind (inStep_removeUse hid) fun _ _ => .of_pure trivial
    | none =>
      exact .bind (inStep_allocResult kin _ _) fun _ _ => .bind (inStep_operand _) fun _ _ =>
        .bind (inStep_copyTo _ _ _) fun _ _ => .bind (inStep_consume hid) fun _ _ =>
          .of_pure trivial
  split
  · refine .of_get (fun s s' twin => ?_) (fun _ _ => rfl) fun _ _ => rfl
    rw [twin.regs]
    exact .bind (.of_pure (P := Whatever) trivial) fun own _ => rest own
  · exact .bind (.of_pure (P := Whatever) trivial) fun own _ => rest own

theorem inStep_generalRegister (id : NodeId) :
    InStep (Twin Known I) Whatever (generalRegister id) (generalRegister id) := by
  refine .bind (inStep_operand id) fun o _ => ?_
  split
  · exact .of_pure trivial
  · exact .bind (inStep_plain Assembler.plain_mov) fun _ _ => .of_pure trivial

theorem inStep_normalize (r : Reg) (ty : ScalarType) :
    InStep (Twin Known I) Whatever (normalize r ty) (normalize r ty) := by
  unfold normalize
  split
  · exact inStep_plain (Assembler.plain_extend _)
  · exact .nothing

end

end Lowering

end NativeExpr
