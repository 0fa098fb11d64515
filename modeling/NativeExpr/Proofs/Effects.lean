import NativeExpr.Proofs.Cells
import NativeExpr.Proofs.Execution
import NativeExpr.Proofs.Floats

/-!
# What the operations of the assembler do

Each operation with operands of the right classes appends instructions that have
one effect on the machine, told here by register names. The only error is that
the code does not fit its buffer.
-/
namespace NativeExpr

open X64 Machine

/-- Whether an error says that code did not fit. -/
def CompileError.IsOverflow : CompileError → Prop
  | .bufferOverflow .. => True
  | _ => False

namespace Reg

/-- A register of a class with a hardware number. -/
def Of (c : RegClass) (r : Reg) : Prop := r.Valid ∧ r.regClass = c

instance (c : RegClass) (r : Reg) : Decidable (r.Of c) := inferInstanceAs (Decidable (_ ∧ _))

end Reg

namespace X64

/-- A memory operand that can be encoded. -/
structure Mem.Ready (m : Mem) : Prop where
  base : m.base.Of .general
  index : ∀ r scale, m.index = some (r, scale) → r.Of .general ∧ r ≠ .rsp

def Operand.Ready (c : RegClass) : Operand → Prop
  | .reg r => r.Of c
  | .mem m => m.Ready
  | .imm _ => c = .general

def Operand.isImm : Operand → Bool
  | .imm _ => true
  | _ => false

theorem Mem.ready_baseDisp {base : Reg} (h : base.Of .general) (disp : Int) :
    (Mem.baseDisp base disp).Ready := ⟨h, fun _ _ hi => by cases hi⟩

end X64

namespace Machine.State

variable (s : State)

def memAddress (m : Mem) : Word :=
  let index :=
    match m.index with
    | some (r, scale) => s.named r * BitVec.ofNat 64 scale.factor
    | none => 0
  s.named m.base + index + (BitVec.ofInt 32 m.disp).signExtend 64

def operand : Operand → Word
  | .reg r => s.named r
  | .mem m => s.memory.load (s.memAddress m) 8
  | .imm v => v.signExtend 64

def scalar (p : Precision) : Operand → Word
  | .reg r => (s.named r).setWidth p.width |>.setWidth 64
  | .mem m => s.memory.load (s.memAddress m) (p.width / 8)
  | .imm _ => 0

/-- Writes a float to a vector register and keeps the bits above it. -/
def setFloat (p : Precision) (r : Reg) (x : Word) : State :=
  match p with
  | .double => s.setNamed r x
  | .single => s.setNamed r (s.named r &&& 0xffffffff00000000 ||| (x.setWidth 32).setWidth 64)

/-- Writes the low byte of a general register and keeps the other bytes. -/
def setLow (r : Reg) (x : Byte) : State :=
  s.setNamed r (s.named r &&& 0xffffffffffffff00 ||| x.setWidth 64)

end Machine.State

namespace Machine

open State

/-! ## Operands -/

variable {r dst src : Reg} {c : RegClass} {m : Mem} {o : Operand} {p : Precision} {s : State}

theorem number_eq (h : r.Of c) : Assembler.number c r = .ok r.num := by
  obtain ⟨⟨-, hi⟩, hc⟩ := h
  rw [Assembler.number, if_neg (fun hne => hne hc), if_pos hi]
  rfl

theorem num_ne_stackPointer (h : r.Of .general) (hr : r ≠ .rsp) : r.num ≠ RegNum.stackPointer :=
  fun e => hr ((h.1.num_inj (q := .rsp) (by decide) h.2).1 e)

theorem address_eq (h : m.Ready) : ∃ a, Assembler.address m = .ok a ∧ a.Encodable ∧
    ∀ s : State, s.address a = s.memAddress m := by
  obtain ⟨base, index, disp⟩ := m
  obtain ⟨hb, hi⟩ := h
  cases index with
  | none =>
    refine ⟨⟨base.num, none, BitVec.ofInt 32 disp⟩, ?_, (fun _ hi => nomatch hi), fun s => ?_⟩
    · simp only [Assembler.address, Assembler.general, number_eq hb]
      rfl
    · simp only [State.address, memAddress, named_general hb.2]
  | some i =>
    obtain ⟨x, scale⟩ := i
    obtain ⟨hx, hne⟩ := hi x scale rfl
    refine ⟨⟨base.num, some (x.num, scale), BitVec.ofInt 32 disp⟩, ?_, fun i hi => ?_, fun s => ?_⟩
    · simp only [Assembler.address, Assembler.general, number_eq hb, number_eq hx]
      rfl
    · cases hi
      exact num_ne_stackPointer hx hne
    · simp only [State.address, memAddress, named_general hb.2, named_general hx.2]

theorem read_reg (h : r.Of .general) (s : State) : s.read 8 (.reg r.num) = s.named r := by
  simp [State.read, named_general h.2]

theorem readFloat_reg (h : r.Of .float) (p : Precision) (s : State) :
    s.readFloat p (.reg r.num) = s.scalar p (.reg r) := by
  simp only [State.readFloat, scalar, named_float h.2]

theorem regMem_eq (form : String) (h : o.Ready c) (hi : o.isImm = false) :
    ∃ rm, Assembler.regMem form c o = .ok rm ∧ rm.Encodable ∧
      (c = .general → ∀ s : State, s.read 8 rm = s.operand o) ∧
      (c = .float → ∀ (s : State) p, s.readFloat p rm = s.scalar p o) := by
  cases o with
  | imm v => cases hi
  | reg r =>
    refine ⟨.reg r.num, ?_, trivial, ?_, ?_⟩
    · simp only [Assembler.regMem, number_eq h]
      rfl
    · rintro rfl s
      exact read_reg h s
    · rintro rfl s p
      exact readFloat_reg h p s
  | mem m =>
    obtain ⟨a, ha, enc, addr⟩ := address_eq (m := m) h
    refine ⟨.mem a, ?_, enc, fun _ s => ?_, fun _ s p => ?_⟩
    · simp only [Assembler.regMem, ha]
      rfl
    · simp only [State.read, operand, addr]
    · simp only [State.readFloat, scalar, addr]

/-! ## Appending instructions -/

/-- An operation that appends an instruction, if any, with an effect on the machine.
The address is that of the memory the instruction writes. -/
def PerformsAt (m : Asm Unit) (address : State → Option Word) (f : State → Option State) : Prop :=
  ∀ a : Assembler, a.residue = [] →
    Yields m a
      (fun _ a' => a'.residue = [] ∧ a.buffer.Balanced a'.buffer ∧
        ∃ is : List Instruction, is.length ≤ 1 ∧ a.buffer.Written a'.buffer (is.map .instr) ∧
          (∀ i ∈ is, isStraight i = true ∧ ∀ s, storeAddress? s i = address s) ∧
          ∀ s, effects is s = f s)
      (fun e _ => e.IsOverflow)

/-- An operation that appends an instruction, if any, that writes no memory. -/
abbrev Performs (m : Asm Unit) (f : State → Option State) : Prop := PerformsAt m (fun _ => none) f

abbrev Stores (m : Asm Unit) (address word : State → Word) : Prop :=
  PerformsAt m (fun s => some (address s)) fun s => some (s.write (address s) (word s))

theorem written_emit {b : CodeBuffer} (it : Item) (hv : it.Valid) (hp : it.patches b.size = []) :
    Yields (CodeBuffer.emit it.blank) b (fun _ b' => b.Written b' [it] ∧ b.Balanced b')
      (fun e _ => e.IsOverflow) := by
  unfold Yields CodeBuffer.emit
  by_cases h : b.capacity < b.size + it.blank.length
  · simp only [if_pos h]
    trivial
  · simp only [if_neg h]
    exact ⟨.item hv hp, .of_sameLabels ⟨rfl, fun _ => rfl⟩ rfl⟩

theorem yields_onBuffer {α : Type} {m : CodeBuffer.Emit α} {a : Assembler}
    {post : α → CodeBuffer → Prop} {fails : CompileError → Prop}
    (h : Yields m a.buffer post fun e _ => fails e) :
    Yields (Assembler.onBuffer m) a
      (fun x a' => post x a'.buffer ∧ a'.residue = a.residue) (fun e _ => fails e) := by
  obtain ⟨buffer, residue, count⟩ := a
  unfold Yields Assembler.onBuffer at *
  dsimp only at h ⊢
  cases hm : m buffer with
  | ok x b =>
    rw [hm] at h
    exact ⟨h, rfl⟩
  | error e b =>
    rw [hm] at h
    exact h

theorem yields_emit {i : Instruction} (hi : i.refused? = none) {a : Assembler}
    (ha : a.residue = []) :
    Yields (Assembler.emit i) a
      (fun _ a' => a'.residue = [] ∧ a.buffer.Written a'.buffer [.instr i] ∧
        a.buffer.Balanced a'.buffer)
      (fun e _ => e.IsOverflow) := by
  unfold Assembler.emit
  rw [hi]
  refine .bind (.of_get (.bind (.of_modify (.bind (.of_modify ?_)))))
  rw [ha, List.nil_append]
  exact (yields_onBuffer (written_emit (.instr i) hi rfl)).mono
    (fun _ _ h => ⟨h.2, h.1⟩) fun _ _ h => h

theorem performs_emit {i : Instruction} (hi : i.refused? = none) (straight : isStraight i = true)
    {address : State → Option Word} (writes : ∀ s, storeAddress? s i = address s) :
    PerformsAt (Assembler.emit i) address (effect i) := by
  intro a ha
  refine (yields_emit hi ha).mono (fun _ a' h => ?_) fun _ _ h => h
  refine ⟨h.1, h.2.2, [i], Nat.le_refl _, h.2.1, ?_, fun s => ?_⟩
  · simpa using ⟨straight, writes⟩
  · rw [effects]
    cases effect i s <;> rfl

theorem PerformsAt.congr {m : Asm Unit} {address : State → Option Word}
    {f f' : State → Option State} (h : PerformsAt m address f) (hf : ∀ s, f s = f' s) :
    PerformsAt m address f' := (funext hf : f = f') ▸ h

theorem PerformsAt.lift {α : Type} {x : Except CompileError α} {a : α} {k : α → Asm Unit}
    {address : State → Option Word} {f : State → Option State} (hx : x = .ok a)
    (h : PerformsAt (k a) address f) : PerformsAt ((liftM x : Asm α) >>= k) address f := by
  subst hx
  exact h

theorem performs_nothing : Performs (pure ()) some := fun a ha =>
  .of_pure ⟨ha, .refl, [], Nat.zero_le _, .refl, by simp, fun _ => rfl⟩

/-! ## Moves -/

theorem performs_movImm (hd : dst.Of .general) (v : Word) :
    Performs (Assembler.movImm dst v) fun s => some (s.setNamed dst v) := by
  unfold Assembler.movImm
  refine .lift (number_eq hd) ?_
  split
  · next h =>
    refine (performs_emit rfl rfl fun _ => rfl).congr fun s => ?_
    rw [setNamed_general hd.2]
    exact congrArg some (congrArg (s.setReg dst.num) h)
  · split
    · next h =>
      refine (performs_emit rfl rfl fun _ => rfl).congr fun s => ?_
      rw [setNamed_general hd.2]
      exact congrArg some (congrArg (s.setReg dst.num) h)
    · refine (performs_emit rfl rfl fun _ => rfl).congr fun s => ?_
      rw [setNamed_general hd.2]
      rfl

theorem refused_mem {i : Instruction} {position : Nat} {a : Address} (ha : a.Encodable)
    (hi : i.memory? = some (position, a)) : i.refused? = none := by
  rw [Instruction.refused?, hi]
  exact if_pos ha

theorem refused_regMem {i : Instruction} (position : Nat) {rm : RegMem} (h : rm.Encodable)
    (hmem : ∀ a, rm = .mem a → i.memory? = some (position, a))
    (hreg : ∀ r, rm = .reg r → i.memory? = none) : i.refused? = none := by
  cases rm with
  | reg r => rw [Instruction.refused?, hreg r rfl]
  | mem a => exact refused_mem h (hmem a rfl)

theorem performs_mov (hd : dst.Of .general) (ho : o.Ready .general) :
    Performs (Assembler.mov dst o) fun s => some (s.setNamed dst (s.operand o)) := by
  unfold Assembler.mov
  refine .lift (number_eq hd) ?_
  cases o with
  | imm v => exact performs_movImm hd _
  | mem m =>
    obtain ⟨a, ha, enc, addr⟩ := address_eq (m := m) ho
    refine .lift ha ((performs_emit (refused_mem enc rfl) rfl fun _ => rfl).congr fun s => ?_)
    rw [setNamed_general hd.2, operand, ← addr]
    rfl
  | reg r =>
    dsimp only
    split
    · next h =>
      refine performs_nothing.congr fun s => ?_
      rw [h, operand, setNamed_named]
    · refine .lift (number_eq ho) ((performs_emit rfl rfl fun _ => rfl).congr fun s => ?_)
      rw [setNamed_general hd.2, operand, ← read_reg ho]
      rfl

theorem performs_store (hm : m.Ready) (hs : src.Of .general) :
    Stores (Assembler.store m src) (·.memAddress m) (·.named src) := by
  unfold Assembler.store
  obtain ⟨a, ha, enc, addr⟩ := address_eq hm
  have emit : PerformsAt (Assembler.emit (.store (.mem a) src.num))
      (fun s => some (s.memAddress m)) _ :=
    performs_emit (refused_mem enc rfl) rfl fun s => congrArg some (addr s)
  refine .lift ha (.lift (number_eq hs) (emit.congr fun s => ?_))
  dsimp only
  rw [← addr, named_general hs.2]
  rfl

theorem performs_storeImm (hm : m.Ready) (v : BitVec 32) :
    Stores (Assembler.storeImm m v) (·.memAddress m) fun _ => v.signExtend 64 := by
  unfold Assembler.storeImm
  obtain ⟨a, ha, enc, addr⟩ := address_eq hm
  have emit : PerformsAt (Assembler.emit (.movSigned (.mem a) v))
      (fun s => some (s.memAddress m)) _ :=
    performs_emit (refused_mem enc rfl) rfl fun s => congrArg some (addr s)
  refine .lift ha (emit.congr fun s => ?_)
  dsimp only
  rw [← addr]
  rfl

theorem widen_low (kind : Extension) (x : Word) :
    widen kind ((x.setWidth (8 * extensionSize kind)).setWidth 64) = widen kind x := by
  cases kind <;> simp [widen, extensionSize]

theorem performs_extend (kind : Extension) (hd : dst.Of .general) (hs : src.Of .general) :
    Performs (Assembler.extend kind dst src) fun s =>
      some (s.setNamed dst (widen kind (s.named src))) := by
  unfold Assembler.extend
  refine .lift (number_eq hd) (.lift (number_eq hs)
    ((performs_emit rfl rfl fun _ => rfl).congr fun s => ?_))
  rw [setNamed_general hd.2, named_general hs.2, ← widen_low]
  rfl

theorem performs_load (hd : dst.Of .general) (hm : m.Ready) :
    Performs (Assembler.load none dst m) fun s =>
      some (s.setNamed dst (s.operand (.mem m))) := by
  unfold Assembler.load
  obtain ⟨a, ha, enc, addr⟩ := address_eq hm
  refine .lift ha (.lift (number_eq hd)
    ((performs_emit (refused_mem enc rfl) rfl fun _ => rfl).congr fun s => ?_))
  rw [setNamed_general hd.2, operand, ← addr]
  rfl

theorem performs_loadNarrow (kind : Extension) (hd : dst.Of .general) (hm : m.Ready) :
    Performs (Assembler.load (some kind) dst m) fun s =>
      some (s.setNamed dst (widen kind (s.memory.load (s.memAddress m) (extensionSize kind)))) := by
  unfold Assembler.load
  obtain ⟨a, ha, enc, addr⟩ := address_eq hm
  refine .lift ha (.lift (number_eq hd)
    ((performs_emit (refused_mem enc rfl) rfl fun _ => rfl).congr fun s => ?_))
  rw [setNamed_general hd.2, ← addr]
  rfl

/-! ## Integer arithmetic -/

theorem performs_alu (op : AluOp) (hd : dst.Of .general) (ho : o.Ready .general) :
    Performs (Assembler.alu op dst o) fun s => some (execAlu s op dst.num (s.operand o)) := by
  unfold Assembler.alu
  refine .lift (number_eq hd) ?_
  cases o with
  | imm v =>
    refine (performs_emit rfl rfl fun _ => rfl).congr fun s => ?_
    cases op <;> rfl
  | reg r =>
    refine .lift (number_eq ho) ((performs_emit rfl rfl fun _ => rfl).congr fun s => ?_)
    rw [operand, ← read_reg ho]
    cases op <;> rfl
  | mem m =>
    obtain ⟨a, ha, enc, addr⟩ := address_eq (m := m) ho
    refine .lift ha ((performs_emit (refused_mem enc rfl) rfl fun _ => rfl).congr fun s => ?_)
    have read : s.operand (.mem m) = s.read 8 (.mem a) := by
      rw [operand, ← addr]
      rfl
    rw [read]
    show some ((execAlu s op dst.num (s.read 8 (.mem a))).setPc s.pc) = _
    generalize s.read 8 (.mem a) = y
    cases op <;> rfl

def aluResult (op : AluOp) (x y : Word) : Word :=
  match op with
  | .add => x + y
  | .sub => x - y
  | .and => x &&& y
  | .or => x ||| y
  | .xor => x ^^^ y
  | .cmp => x

theorem execAlu_eq (hd : dst.Of .general) (op : AluOp) (s : State) (y : Word) :
    ∃ f, execAlu s op dst.num y = (s.setNamed dst (aluResult op (s.named dst) y)).setFlags f := by
  rw [setNamed_general hd.2, named_general hd.2]
  cases op with
  | cmp => exact ⟨_, by rw [aluResult, setReg_reg]; rfl⟩
  | _ => exact ⟨_, rfl⟩

theorem execAlu_cmp (hd : dst.Of .general) (s : State) (y : Word) :
    execAlu s .cmp dst.num y = s.setFlags (.ofSub (s.named dst) y) := by
  rw [named_general hd.2]
  rfl

theorem performs_imul (hd : dst.Of .general) (ho : o.Ready .general) :
    Performs (Assembler.imul dst o) fun s =>
      some (s.setNamed dst (s.named dst * s.operand o)) := by
  unfold Assembler.imul
  refine .lift (number_eq hd) ?_
  cases o with
  | imm v =>
    refine (performs_emit rfl rfl fun _ => rfl).congr fun s => ?_
    rw [setNamed_general hd.2, ← read_reg hd]
    rfl
  | reg r =>
    refine .lift (number_eq ho) ((performs_emit rfl rfl fun _ => rfl).congr fun s => ?_)
    rw [setNamed_general hd.2, operand, ← read_reg ho, named_general hd.2]
    rfl
  | mem m =>
    obtain ⟨a, ha, enc, addr⟩ := address_eq (m := m) ho
    refine .lift ha ((performs_emit (refused_mem enc rfl) rfl fun _ => rfl).congr fun s => ?_)
    rw [setNamed_general hd.2, operand, ← addr, named_general hd.2]
    rfl

/-- Quotient and remainder of a division of `rdx:rax`. -/
def divide (signed : Bool) (high low divisor : Word) : Option (Word × Word) :=
  if signed then divideSigned high low divisor else divideUnsigned high low divisor

theorem performs_div (signed : Bool) (ho : o.Ready .general) (hi : o.isImm = false) :
    Performs (Assembler.div signed o) fun s =>
      (divide signed (s.named .rdx) (s.named .rax) (s.operand o)).map fun (q, r) =>
        (s.setNamed .rax q).setNamed .rdx r := by
  unfold Assembler.div
  obtain ⟨rm, hrm, enc, read, -⟩ := regMem_eq "div takes" ho hi
  refine .lift hrm ((performs_emit (i := .div signed rm) (refused_regMem 0 enc
    (by rintro a rfl; rfl) (by rintro r rfl; rfl)) rfl fun _ => rfl).congr fun s => ?_)
  rw [← read rfl]
  cases signed with
  | true =>
    show Option.bind (divideSigned (s.reg 2) (s.reg 0) (s.read 8 rm)) _ =
      (divideSigned (s.reg 2) (s.reg 0) (s.read 8 rm)).map _
    cases divideSigned (s.reg 2) (s.reg 0) (s.read 8 rm) with
    | none => rfl
    | some qr => rfl
  | false =>
    show Option.bind (divideUnsigned (s.reg 2) (s.reg 0) (s.read 8 rm)) _ =
      (divideUnsigned (s.reg 2) (s.reg 0) (s.read 8 rm)).map _
    cases divideUnsigned (s.reg 2) (s.reg 0) (s.read 8 rm) with
    | none => rfl
    | some qr => rfl

theorem performs_cqo : Performs Assembler.cqo fun s =>
    some (s.setNamed .rdx ((s.named .rax).sshiftRight 63)) :=
  (performs_emit rfl rfl fun _ => rfl).congr fun _ => rfl

theorem performs_shiftCl (op : ShiftOp) (hd : dst.Of .general) :
    Performs (Assembler.shiftCl op dst) fun s =>
      some (s.setNamed dst (shiftWord op (s.named dst) ((s.named .rcx).setWidth 8).toNat)) := by
  unfold Assembler.shiftCl
  refine .lift (number_eq hd) ((performs_emit rfl rfl fun _ => rfl).congr fun s => ?_)
  rw [setNamed_general hd.2, named_general hd.2]
  rfl

theorem performs_shiftImm (op : ShiftOp) (hd : dst.Of .general) (count : Nat) :
    Performs (Assembler.shiftImm op dst count) fun s =>
      some (s.setNamed dst (shiftWord op (s.named dst) (count % 64))) := by
  unfold Assembler.shiftImm
  refine .lift (number_eq hd) ((performs_emit rfl rfl fun _ => rfl).congr fun s => ?_)
  have : (BitVec.ofNat 8 (count % 64)).toNat = count % 64 := by
    rw [BitVec.toNat_ofNat, Nat.mod_eq_of_lt (by omega)]
  rw [setNamed_general hd.2, named_general hd.2]
  exact congrArg (fun n => some (s.setReg dst.num (shiftWord op (s.reg dst.num) n))) this

theorem performs_test (hd : dst.Of .general) (hs : src.Of .general) :
    Performs (Assembler.test dst src) fun s =>
      some (s.setFlags (.ofLogic (s.named dst &&& s.named src))) := by
  unfold Assembler.test
  refine .lift (number_eq hd) (.lift (number_eq hs)
    ((performs_emit rfl rfl fun _ => rfl).congr fun s => ?_))
  rw [named_general hd.2, named_general hs.2]
  rfl

theorem setByte_eq (hd : dst.Of .general) (s : State) (x : Byte) :
    s.setByte dst.num x = s.setLow dst x := by
  rw [setByte, setLow, setNamed_general hd.2, named_general hd.2]

theorem performs_setcc (cond : Condition) (hd : dst.Of .general) :
    Performs (Assembler.setcc cond dst) fun s =>
      some (s.setLow dst (if s.flags.holds cond then 1 else 0)) := by
  unfold Assembler.setcc
  refine .lift (number_eq hd) ((performs_emit rfl rfl fun _ => rfl).congr fun s => ?_)
  rw [← setByte_eq hd]
  rfl

theorem execByte_eq (hd : dst.Of .general) (hs : src.Of .general) (f : Byte → Byte → Byte)
    (s : State) : ∃ fl, execByte s f dst.num src.num =
      (s.setLow dst (f ((s.named dst).setWidth 8) ((s.named src).setWidth 8))).setFlags fl := by
  rw [← setByte_eq hd, named_general hd.2, named_general hs.2]
  exact ⟨_, rfl⟩

theorem performs_and8 (hd : dst.Of .general) (hs : src.Of .general) :
    Performs (Assembler.and8 dst src) fun s =>
      some (execByte s (· &&& ·) dst.num src.num) := by
  unfold Assembler.and8
  exact .lift (number_eq hd) (.lift (number_eq hs)
    ((performs_emit rfl rfl fun _ => rfl).congr fun s => rfl))

theorem performs_or8 (hd : dst.Of .general) (hs : src.Of .general) :
    Performs (Assembler.or8 dst src) fun s =>
      some (execByte s (· ||| ·) dst.num src.num) := by
  unfold Assembler.or8
  exact .lift (number_eq hd) (.lift (number_eq hs)
    ((performs_emit rfl rfl fun _ => rfl).congr fun s => rfl))

/-! ## Scalar floats -/

theorem setScalar_eq (hd : dst.Of .float) (p : Precision) (s : State) (x : Word) :
    s.setScalar p dst.num x = s.setFloat p dst x := by
  cases p with
  | single => rw [setScalar, setFloat, setNamed_float hd.2, named_float hd.2]
  | double => rw [setScalar, setFloat, setNamed_float hd.2]

/-- The low part of a register after a float is written to it. -/
theorem exists_setFloat (p : Precision) (s : State) (r : Reg) (x : Word) (hx : p.Fits x) :
    ∃ w, s.setFloat p r x = s.setNamed r w ∧ (w.setWidth p.width).setWidth 64 = x := by
  cases p with
  | double => exact ⟨x, rfl, hx⟩
  | single =>
    refine ⟨_, rfl, ?_⟩
    have high : (0xffffffff00000000 : Word).setWidth 32 = 0 := rfl
    show ((_ &&& _ ||| _ : Word).setWidth 32).setWidth 64 = x
    rw [BitVec.setWidth_or, BitVec.setWidth_and, high,
      setWidth_setWidth_cancel (x.setWidth 32) (by decide)]
    simpa [Precision.Fits, Precision.width] using hx

/-- The low byte of a register after a byte is written to it. -/
theorem exists_setLow (s : State) (r : Reg) (x : Byte) :
    ∃ w, s.setLow r x = s.setNamed r w ∧ w.setWidth 8 = x ∧
      ((s.named r).toNat < 256 → w = x.setWidth 64) := by
  refine ⟨_, rfl, ?_, fun small => ?_⟩
  · have high : (0xffffffffffffff00 : Word).setWidth 8 = 0 := rfl
    rw [BitVec.setWidth_or, BitVec.setWidth_and, high, setWidth_setWidth_cancel x (by decide)]
    simp
  · have cleared : s.named r &&& 0xffffffffffffff00 = 0#64 := by
      have fits : s.named r = ((s.named r).setWidth 8).setWidth 64 := by
        apply BitVec.eq_of_toNat_eq
        rw [BitVec.toNat_setWidth, BitVec.toNat_setWidth]
        omega
      rw [fits]
      apply BitVec.eq_of_getLsbD_eq
      intro i hi
      rw [BitVec.getLsbD_and, BitVec.getLsbD_setWidth, BitVec.getLsbD_zero]
      by_cases h8 : i < 8
      · have : (0xffffffffffffff00 : Word).getLsbD i = false :=
          (by decide : ∀ j < 8, (0xffffffffffffff00 : Word).getLsbD j = false) i h8
        rw [this, Bool.and_false]
      · rw [BitVec.getLsbD_of_ge _ i (Nat.le_of_not_lt h8), Bool.and_false, Bool.false_and]
    rw [cleared, BitVec.zero_or]

theorem performs_floatOp (op : FloatOp) (p : Precision) (hd : dst.Of .float) (ho : o.Ready .float) :
    Performs (Assembler.floatOp op p dst o) fun s =>
      some (s.setFloat p dst (p.execute op (s.scalar p (.reg dst)) (s.scalar p o))) := by
  have hi : o.isImm = false := by cases o <;> first | rfl | cases ho
  unfold Assembler.floatOp
  obtain ⟨rm, hrm, enc, -, read⟩ := regMem_eq "SSE instructions take" ho hi
  refine .lift (number_eq hd) (.lift hrm ((performs_emit (i := .floatOp op p dst.num rm)
    (refused_regMem 1 enc (by rintro a rfl; rfl) (by rintro r rfl; rfl))
    rfl fun _ => rfl).congr fun s => ?_))
  rw [← read rfl, ← readFloat_reg hd, ← setScalar_eq hd]
  cases p <;> rfl

theorem performs_ucomis (p : Precision) (hd : dst.Of .float) (ho : o.Ready .float) :
    Performs (Assembler.ucomis p dst o) fun s =>
      some (s.setFlags (.ofOrder (p.compare (s.scalar p (.reg dst)) (s.scalar p o)))) := by
  have hi : o.isImm = false := by cases o <;> first | rfl | cases ho
  unfold Assembler.ucomis
  obtain ⟨rm, hrm, enc, -, read⟩ := regMem_eq "SSE instructions take" ho hi
  refine .lift (number_eq hd) (.lift hrm ((performs_emit (i := .ucomis p dst.num rm)
    (refused_regMem 1 enc (by rintro a rfl; rfl) (by rintro r rfl; rfl))
    rfl fun _ => rfl).congr fun s => ?_))
  rw [← read rfl, ← readFloat_reg hd]
  rfl

def movedFloat (s : State) (p : Precision) : Operand → Word
  | .reg r => s.named r
  | o => s.scalar p o

theorem performs_movFloat (p : Precision) (hd : dst.Of .float) (ho : o.Ready .float) :
    Performs (Assembler.movFloat p dst o) fun s => some (s.setNamed dst (movedFloat s p o)) := by
  have hi : o.isImm = false := by cases o <;> first | rfl | cases ho
  unfold Assembler.movFloat
  split
  · next h =>
    refine performs_nothing.congr fun s => ?_
    rw [h, movedFloat, setNamed_named]
  · cases o with
    | imm v => cases ho
    | reg r =>
      have hrm : Assembler.vectorSource (.reg r) = .ok (.reg r.num) := by
        simp only [Assembler.vectorSource, Assembler.regMem, number_eq ho]
        rfl
      refine .lift (number_eq hd) (.lift hrm
        ((performs_emit rfl rfl fun _ => rfl).congr fun s => ?_))
      rw [setNamed_float hd.2, movedFloat, named_float ho.2]
      rfl
    | mem m =>
      obtain ⟨a, ha, enc, addr⟩ := address_eq (m := m) ho
      have hrm : Assembler.vectorSource (.mem m) = .ok (.mem a) := by
        simp only [Assembler.vectorSource, Assembler.regMem, ha]
        rfl
      refine .lift (number_eq hd) (.lift hrm
        ((performs_emit (refused_mem enc rfl) rfl fun _ => rfl).congr fun s => ?_))
      have moved : movedFloat s p (.mem m) = s.readFloat p (.mem a) := by
        show s.scalar p (.mem m) = _
        rw [scalar, ← addr]
        rfl
      rw [setNamed_float hd.2, moved]
      rfl

theorem performs_storeFloat (hm : m.Ready) (hs : src.Of .float) :
    Stores (Assembler.storeFloat m src) (·.memAddress m) (·.named src) := by
  unfold Assembler.storeFloat
  obtain ⟨a, ha, enc, addr⟩ := address_eq hm
  have emit : PerformsAt (Assembler.emit (.storeFloat a src.num))
      (fun s => some (s.memAddress m)) _ :=
    performs_emit (refused_mem enc rfl) rfl fun s => congrArg some (addr s)
  refine .lift ha (.lift (number_eq hs) (emit.congr fun s => ?_))
  dsimp only
  rw [← addr, named_float hs.2]
  rfl

theorem performs_xorps (hd : dst.Of .float) :
    Performs (Assembler.xorps dst) fun s => some (s.setNamed dst 0) := by
  unfold Assembler.xorps
  refine .lift (number_eq hd) ((performs_emit rfl rfl fun _ => rfl).congr fun s => ?_)
  rw [setNamed_float hd.2]
  exact congrArg (fun x => some (s.setXmm dst.num x)) BitVec.xor_self

theorem performs_movBits (p : Precision) (hd : dst.Of .float) (hs : src.Of .general) :
    Performs (Assembler.movBits p dst src) fun s =>
      some (s.setNamed dst (((s.named src).setWidth p.width).setWidth 64)) := by
  unfold Assembler.movBits
  refine .lift (number_eq hd) (.lift (number_eq hs)
    ((performs_emit rfl rfl fun _ => rfl).congr fun s => ?_))
  rw [setNamed_float hd.2, named_general hs.2]
  rfl

theorem performs_intToFloat (p : Precision) (hd : dst.Of .float) (ho : o.Ready .general)
    (hi : o.isImm = false) :
    Performs (Assembler.intToFloat p dst o) fun s =>
      some (s.setFloat p dst (p.ofInt (s.operand o))) := by
  unfold Assembler.intToFloat
  obtain ⟨rm, hrm, enc, read, -⟩ := regMem_eq "cvtsi2s* takes" ho hi
  refine .lift (number_eq hd) (.lift hrm ((performs_emit (i := .intToFloat p dst.num rm)
    (refused_regMem 1 enc (by rintro a rfl; rfl) (by rintro r rfl; rfl))
    rfl fun _ => rfl).congr fun s => ?_))
  rw [← read rfl, ← setScalar_eq hd]
  cases p <;> rfl

theorem performs_floatToInt (p : Precision) (hd : dst.Of .general) (ho : o.Ready .float) :
    Performs (Assembler.floatToInt p dst o) fun s =>
      some (s.setNamed dst (p.truncate (s.scalar p o))) := by
  have hi : o.isImm = false := by cases o <;> first | rfl | cases ho
  unfold Assembler.floatToInt
  obtain ⟨rm, hrm, enc, -, read⟩ := regMem_eq "cvtts*2si takes" ho hi
  refine .lift (number_eq hd) (.lift hrm ((performs_emit (i := .floatToInt p dst.num rm)
    (refused_regMem 1 enc (by rintro a rfl; rfl) (by rintro r rfl; rfl))
    rfl fun _ => rfl).congr fun s => ?_))
  rw [setNamed_general hd.2, ← read rfl]
  rfl

theorem performs_convertFloat (p : Precision) (hd : dst.Of .float) (ho : o.Ready .float) :
    Performs (Assembler.convertFloat p dst o) fun s =>
      some (s.setFloat p dst (p.convert (s.scalar p.other o))) := by
  have hi : o.isImm = false := by cases o <;> first | rfl | cases ho
  unfold Assembler.convertFloat
  obtain ⟨rm, hrm, enc, -, read⟩ := regMem_eq "SSE instructions take" ho hi
  refine .lift (number_eq hd) (.lift hrm ((performs_emit (i := .convertFloat p dst.num rm)
    (refused_regMem 1 enc (by rintro a rfl; rfl) (by rintro r rfl; rfl))
    rfl fun _ => rfl).congr fun s => ?_))
  rw [← read rfl, ← setScalar_eq hd]
  cases p <;> rfl

/-! ## The stack -/

theorem performs_push (hs : src.Of .general) :
    PerformsAt (Assembler.push src) (fun s => some (s.named .rsp - 8)) fun s =>
      some ((s.setNamed .rsp (s.named .rsp - 8)).write (s.named .rsp - 8) (s.named src)) := by
  unfold Assembler.push
  refine .lift (number_eq hs) ((performs_emit rfl rfl fun _ => rfl).congr fun s => ?_)
  rw [named_general hs.2]
  rfl

theorem performs_pop (hd : dst.Of .general) :
    Performs (Assembler.pop dst) fun s =>
      some ((s.setNamed .rsp (s.named .rsp + 8)).setNamed dst
        (s.memory.load (s.named .rsp) 8)) := by
  unfold Assembler.pop
  refine .lift (number_eq hd) ((performs_emit rfl rfl fun _ => rfl).congr fun s => ?_)
  rw [setNamed_general (r := dst) hd.2]
  rfl

/-! ## Labels and branches -/

theorem yields_branch (it : Item) {opcode : List Byte} {label : Nat} {b : CodeBuffer}
    (hv : it.Valid) (hblank : it.blank = opcode ++ List.replicate 4 0)
    (hp : it.patches b.size = [⟨label, b.size + opcode.length⟩]) :
    Yields (CodeBuffer.emitBranch opcode label) b
      (fun _ b' => b.Written b' [it] ∧ b.SameLabels b')
      (fun e _ => e.IsOverflow) := by
  unfold CodeBuffer.emitBranch
  refine .bind ?_
  by_cases h : b.capacity < b.size + (opcode ++ List.replicate 4 0).length
  · unfold Yields CodeBuffer.emit
    simp only [if_pos h]
    trivial
  · unfold Yields CodeBuffer.emit
    simp only [if_neg h]
    exact ⟨.branch hv hblank hp, rfl, fun _ => rfl⟩

theorem yields_jump {a : Assembler} (label : Nat) (ha : a.residue = []) :
    Yields (Assembler.jump label) a
      (fun _ a' => (a.buffer.Written a'.buffer [.jump label] ∧ a.buffer.SameLabels a'.buffer) ∧
        a'.residue = [])
      (fun e _ => e.IsOverflow) := by
  refine .bind (.of_modify ?_)
  refine (yields_onBuffer (yields_branch (.jump label) trivial rfl rfl)).mono (fun _ _ h => ?_)
    fun _ _ h => h
  exact ⟨h.1, h.2.trans ha⟩

theorem yields_jumpIf {a : Assembler} (cond : Condition) (label : Nat) (ha : a.residue = []) :
    Yields (Assembler.jumpIf cond label) a
      (fun _ a' => (a.buffer.Written a'.buffer [.jumpIf cond label] ∧
        a.buffer.SameLabels a'.buffer) ∧ a'.residue = [])
      (fun e _ => e.IsOverflow) := by
  refine .bind (.of_modify ?_)
  refine (yields_onBuffer (yields_branch (.jumpIf cond label) trivial rfl rfl)).mono
    (fun _ _ h => ?_) fun _ _ h => h
  exact ⟨h.1, h.2.trans ha⟩

theorem yields_createLabel (a : Assembler) :
    Yields Assembler.createLabel a
      (fun label a' => (label = a.buffer.labels.size ∧ a.buffer.Written a'.buffer [] ∧
        a'.buffer.labels.size = label + 1 ∧
        ∀ l, a'.buffer.offset? l = a.buffer.offset? l) ∧ a'.residue = a.residue)
      (fun e _ => e.IsOverflow) := by
  have created : Yields CodeBuffer.createLabel a.buffer (fun label b =>
      label = a.buffer.labels.size ∧ a.buffer.Written b [] ∧ b.labels.size = label + 1 ∧
        ∀ l, b.offset? l = a.buffer.offset? l) fun e _ => e.IsOverflow :=
    ⟨rfl, .create, Array.size_push .., CodeBuffer.offset?_push a.buffer⟩
  exact yields_onBuffer created

theorem yields_bindLabel {a : Assembler} {label : Nat} (hl : label < a.buffer.labels.size)
    (hn : a.buffer.offset? label = none) :
    Yields (Assembler.bindLabel label) a
      (fun _ a' => (a.buffer.Written a'.buffer [] ∧
        a'.buffer.labels.size = a.buffer.labels.size ∧
        ∀ l, a'.buffer.offset? l = if l = label then some a.buffer.size else a.buffer.offset? l) ∧
        a'.residue = a.residue)
      (fun _ _ => False) := by
  have bound : Yields (CodeBuffer.bindLabel label) a.buffer (fun _ b =>
      a.buffer.Written b [] ∧ b.labels.size = a.buffer.labels.size ∧
        ∀ l, b.offset? l = if l = label then some a.buffer.size else a.buffer.offset? l)
      fun _ _ => False := by
    unfold Yields CodeBuffer.bindLabel
    rw [CodeBuffer.isBound, hn, if_neg (by simp), if_pos hl]
    exact ⟨.bindLabel hl hn _, Array.size_setIfInBounds .., CodeBuffer.offset?_set _ hl _⟩
  exact yields_onBuffer bound

end Machine

end NativeExpr
