import NativeExpr.Frame
import NativeExpr.Proofs.InStep

/-!
# What the assembler does

Every operation of the assembler that takes operands refuses them, does nothing or appends
one instruction that is no branch. Branches and labels have operations of their own.
Properties that appending keeps and that do not look at the capacity are kept by all code.
-/
namespace NativeExpr

open Buffered

namespace X64

def Instruction.displacement? : Instruction → Option (BitVec 32)
  | .jump d | .jumpIf _ d => some d
  | _ => none

theorem CodeBuffer.emit_within (b : CodeBuffer) (bytes : List Byte) (capacity : Nat) :
    emit bytes (within b capacity) =
      if capacity < b.size + bytes.length then
        .error (.bufferOverflow (b.size + bytes.length) capacity) (within b capacity)
      else .ok () (within (b.append bytes) capacity) := rfl

namespace Assembler

variable {α : Type} {c : RegClass} {r dst src : Reg} {m : Mem} {o : Operand} {e : CompileError}

/-! ## After one step -/

def withInstruction (a : Assembler) (i : Instruction) : Assembler :=
  ⟨a.buffer.append (a.residue ++ i.encode), [], a.count + 1⟩

def withBranch (a : Assembler) (opcode : List Byte) (label : Nat) : Assembler :=
  let b := a.buffer.append (opcode ++ List.replicate 4 0)
  ⟨{ b with pending := b.pending.push ⟨label, b.size - 4⟩ }, a.residue, a.count + 1⟩

def withLabel (a : Assembler) : Assembler :=
  { a with buffer := { a.buffer with labels := a.buffer.labels.push none } }

/-- The assembler with a label bound to the end of its code. -/
def withBound (a : Assembler) (label : Nat) : Assembler :=
  { a with buffer :=
      { a.buffer with labels := a.buffer.labels.setIfInBounds label (some a.buffer.size) } }

def withRaw (a : Assembler) (bytes : List Byte) : Assembler :=
  { a with buffer := a.buffer.append bytes }

/-- A property that instructions keep. -/
class Steady (I : Assembler → Prop) : Prop where
  emit : ∀ a i, I a → i.refused? = none → i.displacement? = none → I (a.withInstruction i)

/-- A property that instructions, branches and labels keep. -/
class Invariant (I : Assembler → Prop) : Prop extends Steady I where
  jump : ∀ a label, I a → I (a.withBranch [0xE9] label)
  jumpIf : ∀ a (cond : Condition) label, I a →
    I (a.withBranch [0x0F, 0x80 ||| cond.code.setWidth 8] label)
  create : ∀ a, I a → I a.withLabel
  bind : ∀ a label, I a → label < a.buffer.labels.size → a.buffer.isBound label = false →
    I (a.withBound label)

instance : Invariant fun _ => True :=
  { emit := fun _ _ _ _ _ => trivial
    jump := fun _ _ _ => trivial
    jumpIf := fun _ _ _ _ => trivial
    create := fun _ _ => trivial
    bind := fun _ _ _ _ _ => trivial }

/-- One assembler, with a property. -/
def Same (I : Assembler → Prop) (a a' : Assembler) : Prop := a' = a ∧ I a

/-! ## Operands -/

theorem not_overflow_number (h : number c r = .error e) : ¬ e.IsOverflow := by
  unfold number at h
  split at h
  · cases h
    exact not_false
  · split at h
    · cases h
    · cases h
      exact not_false

theorem not_overflow_address (h : address m = .error e) : ¬ e.IsOverflow := by
  rcases bind_eq_error.1 h with h | ⟨base, -, h⟩
  · exact not_overflow_number h
  · split at h
    · cases h
    · rcases bind_eq_error.1 h with h | ⟨index, -, h⟩
      · exact not_overflow_number h
      · cases h

theorem not_overflow_regMem {form : String} (h : regMem form c o = .error e) : ¬ e.IsOverflow := by
  cases o with
  | reg r =>
    cases hn : number c r with
    | ok n =>
      rw [regMem, hn] at h
      cases h
    | error e' =>
      rw [regMem, hn] at h
      cases h
      exact not_overflow_number hn
  | mem m =>
    cases ha : address m with
    | ok a =>
      rw [regMem, ha] at h
      cases h
    | error e' =>
      rw [regMem, ha] at h
      cases h
      exact not_overflow_address ha
  | imm v =>
    cases h
    exact not_false

/-! ## Plain operations -/

/-- What an operation of the assembler does that makes no branch. -/
inductive Plain : Asm Unit → Prop
  | refuse {e : CompileError} (cause : ¬ e.IsOverflow) : Plain (throw e)
  | nothing : Plain (pure ())
  | emit {i : Instruction} (straight : i.displacement? = none) : Plain (Assembler.emit i)

namespace Plain

theorem bind {x : Except CompileError α} {f : α → Asm Unit}
    (cause : ∀ e, x = .error e → ¬ e.IsOverflow) (h : ∀ a, Plain (f a)) :
    Plain (liftM x >>= f) := by
  cases x with
  | ok a => exact h a
  | error e => exact refuse (cause e rfl)

theorem ofNumber {f : RegNum → Asm Unit} (h : ∀ n, Plain (f n)) :
    Plain ((liftM (number c r) : Asm RegNum) >>= f) := bind (fun _ => not_overflow_number) h

theorem ofAddress {f : Address → Asm Unit} (h : ∀ a, Plain (f a)) :
    Plain ((liftM (address m) : Asm Address) >>= f) := bind (fun _ => not_overflow_address) h

theorem ofRegMem {form : String} {f : RegMem → Asm Unit} (h : ∀ s, Plain (f s)) :
    Plain ((liftM (regMem form c o) : Asm RegMem) >>= f) := bind (fun _ => not_overflow_regMem) h

theorem ite {p : Prop} [Decidable p] {m m' : Asm Unit} (h : Plain m) (h' : Plain m') :
    Plain (if p then m else m') := by
  split
  · exact h
  · exact h'

end Plain

theorem plain_movImm (value : Word) : Plain (movImm dst value) :=
  .ofNumber fun _ => .ite (.emit rfl) (.ite (.emit rfl) (.emit rfl))

theorem plain_mov : Plain (mov dst o) := by
  refine .ofNumber fun d => ?_
  cases o with
  | imm value => exact plain_movImm _
  | mem m => exact .ofAddress fun _ => .emit rfl
  | reg r => exact .ite .nothing (.ofNumber fun _ => .emit rfl)

theorem plain_store : Plain (store m src) := .ofAddress fun _ => .ofNumber fun _ => .emit rfl

theorem plain_storeImm (value : BitVec 32) : Plain (storeImm m value) :=
  .ofAddress fun _ => .emit rfl

theorem plain_extend (kind : Extension) : Plain (extend kind dst src) :=
  .ofNumber fun _ => .ofNumber fun _ => .emit rfl

theorem plain_load (kind : Option Extension) : Plain (load kind dst m) := by
  refine .ofAddress fun a => .ofNumber fun d => ?_
  cases kind with
  | none => exact .emit rfl
  | some k => exact .emit rfl

theorem plain_alu (op : AluOp) : Plain (alu op dst o) := by
  refine .ofNumber fun d => ?_
  cases o with
  | imm value => exact .emit rfl
  | reg r => exact .ofNumber fun _ => .emit rfl
  | mem m => exact .ofAddress fun _ => .emit rfl

theorem plain_imul : Plain (imul dst o) := by
  refine .ofNumber fun d => ?_
  cases o with
  | imm value => exact .emit rfl
  | reg r => exact .ofNumber fun _ => .emit rfl
  | mem m => exact .ofAddress fun _ => .emit rfl

theorem plain_div (signed : Bool) : Plain (div signed o) := .ofRegMem fun _ => .emit rfl

theorem plain_cqo : Plain cqo := .emit rfl

theorem plain_shiftCl (op : ShiftOp) : Plain (shiftCl op dst) := .ofNumber fun _ => .emit rfl

theorem plain_shiftImm (op : ShiftOp) (count : Nat) : Plain (shiftImm op dst count) :=
  .ofNumber fun _ => .emit rfl

theorem plain_test : Plain (test dst src) := .ofNumber fun _ => .ofNumber fun _ => .emit rfl

theorem plain_setcc (cond : Condition) : Plain (setcc cond dst) := .ofNumber fun _ => .emit rfl

theorem plain_and8 : Plain (and8 dst src) := .ofNumber fun _ => .ofNumber fun _ => .emit rfl

theorem plain_or8 : Plain (or8 dst src) := .ofNumber fun _ => .ofNumber fun _ => .emit rfl

theorem plain_floatOp (op : FloatOp) (p : Precision) : Plain (floatOp op p dst o) :=
  .ofNumber fun _ => .ofRegMem fun _ => .emit rfl

theorem plain_ucomis (p : Precision) : Plain (ucomis p dst o) :=
  .ofNumber fun _ => .ofRegMem fun _ => .emit rfl

theorem plain_movFloat (p : Precision) : Plain (movFloat p dst o) := by
  refine .ite .nothing (.ofNumber fun d => .ofRegMem fun s => ?_)
  cases s with
  | reg s => exact .emit rfl
  | mem a => exact .emit rfl

theorem plain_storeFloat : Plain (storeFloat m src) :=
  .ofAddress fun _ => .ofNumber fun _ => .emit rfl

theorem plain_xorps : Plain (xorps dst) := .ofNumber fun _ => .emit rfl

theorem plain_movBits (p : Precision) : Plain (movBits p dst src) :=
  .ofNumber fun _ => .ofNumber fun _ => .emit rfl

theorem plain_intToFloat (p : Precision) : Plain (intToFloat p dst o) :=
  .ofNumber fun _ => .ofRegMem fun _ => .emit rfl

theorem plain_floatToInt (p : Precision) : Plain (floatToInt p dst o) :=
  .ofNumber fun _ => .ofRegMem fun _ => .emit rfl

theorem plain_convertFloat (p : Precision) : Plain (convertFloat p dst o) :=
  .ofNumber fun _ => .ofRegMem fun _ => .emit rfl

theorem plain_push : Plain (push r) := .ofNumber fun _ => .emit rfl

theorem plain_pop : Plain (pop r) := .ofNumber fun _ => .emit rfl

theorem plain_callReg : Plain (callReg r) := .ofNumber fun _ => .emit rfl

/-! ## In step -/

variable {I : Assembler → Prop} {a : Assembler}

theorem onBuffer_ok {m : CodeBuffer.Emit α} {b b' : CodeBuffer} {x : α} (h : m b = .ok x b')
    (residue : List Byte) (count : Nat) :
    onBuffer m ⟨b, residue, count⟩ = .ok x ⟨b', residue, count⟩ := by
  rw [onBuffer, h]

theorem onBuffer_error {m : CodeBuffer.Emit α} {b b' : CodeBuffer} (h : m b = .error e b')
    (residue : List Byte) (count : Nat) :
    onBuffer m ⟨b, residue, count⟩ = .error e ⟨b', residue, count⟩ := by
  rw [onBuffer, h]

theorem inStepAt_append {m : Asm Unit} {t : Assembler} {bytes : List Byte}
    {post : Unit → Assembler → Assembler → Prop} (holds : post () t t)
    (size : t.buffer.size = a.buffer.size + bytes.length)
    (fits : ∀ capacity, CodeBuffer.emit bytes (within a.buffer capacity) =
      .ok () (within (a.buffer.append bytes) capacity) →
        m (within a capacity) = .ok () (within t capacity))
    (full : ∀ capacity e, CodeBuffer.emit bytes (within a.buffer capacity) =
      .error e (within a.buffer capacity) → ∃ u, m (within a capacity) = .error e u) :
    InStepAt post m m a a := by
  refine .ok () t t (a.buffer.size + bytes.length) holds
    (size.trans (Nat.max_eq_right (Nat.le_add_right ..)).symm) (fun capacity enough => ?_)
    fun capacity less => ?_
  · have h := fits capacity ((CodeBuffer.emit_within ..).trans (if_neg (Nat.not_lt.2 enough)))
    exact ⟨h, h⟩
  · obtain ⟨u, h⟩ := full capacity _ ((CodeBuffer.emit_within ..).trans (if_pos less))
    exact ⟨_, less, Nat.le_refl _, u, u, h, h⟩

theorem inStepAt_encoded {i : Instruction} {post : Unit → Assembler → Assembler → Prop}
    (valid : i.refused? = none) (h : post () (a.withInstruction i) (a.withInstruction i)) :
    InStepAt post (emit i) (emit i) a a := by
  have run (capacity : Nat) : emit i (within a capacity) =
      onBuffer (CodeBuffer.emit (a.residue ++ i.encode))
        ⟨within a.buffer capacity, [], a.count + 1⟩ := by
    unfold emit
    rw [valid]
    rfl
  exact inStepAt_append (t := a.withInstruction i) h (CodeBuffer.size_append ..)
    (fun capacity fits => (run capacity).trans (onBuffer_ok fits _ _))
    fun capacity e full => ⟨_, (run capacity).trans (onBuffer_error full _ _)⟩

theorem inStepAt_emit [Steady I] {i : Instruction} (straight : i.displacement? = none)
    (ha : I a) : InStepAt (fun _ t t' => Same I t t' ∧ Whatever ()) (emit i) (emit i) a a := by
  cases valid : i.refused? with
  | some position =>
    have run (capacity : Nat) : emit i (within a capacity) =
        .error (.encoding (.stackPointerIndex position))
          (within { a with residue := a.residue ++ i.refusedBytes } capacity) := by
      unfold emit
      rw [valid]
      rfl
    exact .error _ _ _ 0 (by exact not_false) (fun capacity _ => ⟨run capacity, run capacity⟩)
      fun _ h => absurd h (Nat.not_lt_zero _)
  | none => exact inStepAt_encoded valid ⟨⟨rfl, Steady.emit a i ha valid straight⟩, trivial⟩

theorem inStep_of_plain [Steady I] {m : Asm Unit} (h : Plain m) :
    InStep (Same I) Whatever m m := by
  cases h with
  | refuse cause => exact .of_throw cause
  | nothing => exact .nothing
  | emit straight => exact ⟨fun _ _ ⟨rfl, ha⟩ => inStepAt_emit straight ha⟩

theorem inStepAt_branch {opcode : List Byte} {label : Nat} (h : I (a.withBranch opcode label)) :
    InStepAt (fun _ t t' => Same I t t' ∧ Whatever ())
      (do counted; onBuffer (CodeBuffer.emitBranch opcode label))
      (do counted; onBuffer (CodeBuffer.emitBranch opcode label)) a a := by
  refine inStepAt_append (t := a.withBranch opcode label) ⟨⟨rfl, h⟩, trivial⟩
    (CodeBuffer.size_append ..) (fun capacity fits => ?_) fun capacity e full => ?_
  · refine onBuffer_ok (b := within a.buffer capacity) ?_ a.residue (a.count + 1)
    rw [CodeBuffer.emitBranch, bind_within, fits]
    rfl
  · have full : CodeBuffer.emitBranch opcode label (within a.buffer capacity) =
        .error e (within a.buffer capacity) := by rw [CodeBuffer.emitBranch, bind_within, full]
    exact ⟨_, onBuffer_error full a.residue (a.count + 1)⟩

theorem inStep_jump [Invariant I] (label : Nat) :
    InStep (Same I) Whatever (jump label) (jump label) :=
  ⟨fun _ _ ⟨rfl, ha⟩ => inStepAt_branch (Invariant.jump _ label ha)⟩

theorem inStep_jumpIf [Invariant I] (cond : Condition) (label : Nat) :
    InStep (Same I) Whatever (jumpIf cond label) (jumpIf cond label) :=
  ⟨fun _ _ ⟨rfl, ha⟩ => inStepAt_branch (Invariant.jumpIf _ cond label ha)⟩

theorem inStep_createLabel [Invariant I] :
    InStep (Same I) Whatever createLabel createLabel := by
  refine ⟨?_⟩
  rintro _ a ⟨rfl, ha⟩
  exact .ok a.buffer.labels.size a.withLabel a.withLabel 0 ⟨⟨rfl, Invariant.create a ha⟩, trivial⟩
    (Nat.max_zero _).symm (fun _ _ => ⟨rfl, rfl⟩) fun _ h => absurd h (Nat.not_lt_zero _)

theorem inStep_bindLabel [Invariant I] (label : Nat) :
    InStep (Same I) Whatever (bindLabel label) (bindLabel label) := by
  refine ⟨?_⟩
  rintro _ a ⟨rfl, ha⟩
  by_cases twice : a.buffer.isBound label = true
  · have run (capacity : Nat) : CodeBuffer.bindLabel label (within a.buffer capacity) =
        .error (.encoding (.boundTwice label)) (within a.buffer capacity) := if_pos twice
    exact .error (.encoding (.boundTwice label)) a a 0 not_false
      (fun capacity _ => ⟨onBuffer_error (run capacity) _ _, onBuffer_error (run capacity) _ _⟩)
      fun _ h => absurd h (Nat.not_lt_zero _)
  by_cases known : label < a.buffer.labels.size
  · have run (capacity : Nat) : CodeBuffer.bindLabel label (within a.buffer capacity) =
        .ok () (within (a.withBound label).buffer capacity) := (if_neg twice).trans (if_pos known)
    exact .ok () (a.withBound label) (a.withBound label) 0
      ⟨⟨rfl, Invariant.bind a label ha known (Bool.eq_false_iff.2 twice)⟩, trivial⟩
      (Nat.max_zero _).symm
      (fun capacity _ => ⟨onBuffer_ok (run capacity) _ _, onBuffer_ok (run capacity) _ _⟩)
      fun _ h => absurd h (Nat.not_lt_zero _)
  · have run (capacity : Nat) : CodeBuffer.bindLabel label (within a.buffer capacity) =
        .error (.unresolvedLabel label) (within a.buffer capacity) :=
      (if_neg twice).trans (if_neg known)
    exact .error (.unresolvedLabel label) a a 0 not_false
      (fun capacity _ => ⟨onBuffer_error (run capacity) _ _, onBuffer_error (run capacity) _ _⟩)
      fun _ h => absurd h (Nat.not_lt_zero _)

theorem inStepAt_emitRaw {J : Assembler → Prop} {bytes : List Byte} (h : J (a.withRaw bytes)) :
    InStepAt (fun _ t t' => Same J t t' ∧ Whatever ()) (emitRaw bytes) (emitRaw bytes) a a :=
  inStepAt_append (t := a.withRaw bytes) ⟨⟨rfl, h⟩, trivial⟩ (CodeBuffer.size_append ..)
    (fun _ fits => onBuffer_ok fits _ _) fun _ _ full => ⟨_, onBuffer_error full _ _⟩

end Assembler

end X64

/-! ## Frames -/

namespace Frame

open X64 X64.Assembler

variable {f : Frame} {I : Assembler → Prop} [Steady I]

theorem inStep_emitPrologue : InStep (Same I) Whatever f.emitPrologue f.emitPrologue :=
  .bind (inStep_of_plain plain_push) fun _ _ => .bind (inStep_of_plain plain_mov) fun _ _ =>
    .ite (.bind (inStep_of_plain (plain_alu _)) fun _ _ =>
        .forM fun _ _ => inStep_of_plain plain_store)
      (.forM fun _ _ => inStep_of_plain plain_store)

/-- The epilogue but for the return. -/
def emitClose (f : Frame) : Asm Unit := do
  f.saves.forM fun (r, slot) => Assembler.load none r (.frame slot)
  Assembler.mov .rsp (.reg .rbp)
  Assembler.pop .rbp

theorem emitEpilogue_eq (f : Frame) : f.emitEpilogue = f.emitClose >>= fun _ => Assembler.ret := by
  simp only [emitEpilogue, emitClose, bind_assoc]

theorem inStep_emitClose : InStep (Same I) Whatever f.emitClose f.emitClose :=
  .bind (.forM fun _ _ => inStep_of_plain (plain_load _)) fun _ _ =>
    .bind (inStep_of_plain plain_mov) fun _ _ => inStep_of_plain plain_pop

/-- A frame is put around a body in step: `I` holds before the body, and from it on `J n`, where
the body starts at offset `n`. The last instruction is a return. -/
theorem inStepAt_emitFunction {J : Nat → Assembler → Prop} [∀ n, Steady (J n)] {a : Assembler}
    {body : Array Byte} (start : I a) (raw : ∀ a, I a → J a.size (a.withRaw body.toList))
    (bare : J 0 (a.withRaw body.toList)) :
    InStepAt (fun n t t' => t' = t ∧ ∃ u, J n u ∧ t = u.withInstruction .ret)
      (f.emitFunction body) (f.emitFunction body) a a := by
  have closes {n : Nat} {u : Assembler} (hu : J n u) :
      InStepAt (fun n t t' => t' = t ∧ ∃ u, J n u ∧ t = u.withInstruction .ret)
        (Assembler.ret >>= fun _ => pure n) (Assembler.ret >>= fun _ => pure n) u u := by
    have last : InStepAt (fun _ t t' => t' = t ∧ ∃ u, J n u ∧ t = u.withInstruction .ret)
        Assembler.ret Assembler.ret u u := inStepAt_encoded rfl ⟨rfl, u, hu, rfl⟩
    exact last.bind fun _ _ _ h => .of_pure h
  unfold emitFunction
  split
  · refine (inStep_emitPrologue.at_ a a ⟨rfl, start⟩).bind fun _ t t' ⟨⟨same, ht⟩, _⟩ => ?_
    subst same
    refine .of_get ?_ (fun _ => rfl) fun _ => rfl
    refine (inStepAt_emitRaw (raw t' ht)).bind fun _ u u' ⟨related, _⟩ => ?_
    rw [emitEpilogue_eq, bind_assoc]
    refine (inStep_emitClose.at_ u u' related).bind fun _ v v' ⟨⟨same, hv⟩, _⟩ => ?_
    subst same
    exact closes hv
  · refine (inStepAt_emitRaw bare).bind fun _ u u' ⟨⟨same, hu⟩, _⟩ => ?_
    subst same
    exact closes hu

end Frame

end NativeExpr
