import NativeExpr.X64.CodeBuffer
import NativeExpr.X64.Encode

/-!
# The assembler

The assembler takes operands by register name, checks that every register has
the class its place asks for, picks the shortest form and appends the encoded
instruction to a code buffer. What an instruction wrote before it was refused
stays behind and goes out in front of the next one.
-/
namespace NativeExpr.X64

open NativeExpr

/-- The memory operand `[base + index * scale + disp]` by register name. -/
structure Mem where
  base : Reg
  index : Option (Reg × Scale)
  disp : Int
  deriving DecidableEq, Repr

namespace Mem

def baseDisp (base : Reg) (disp : Int) : Mem := ⟨base, none, disp⟩

def indexed (base index : Reg) (scale : Scale) (disp : Int) : Mem :=
  ⟨base, some (index, scale), disp⟩

/-- A frame slot, by its offset from the frame pointer. -/
def frame (offset : Int) : Mem := baseDisp (.gp 5) offset

/-- An outgoing argument, by its offset from the stack pointer. -/
def outgoing (offset : Int) : Mem := baseDisp (.gp 4) offset

end Mem

/-- A source operand. -/
inductive Operand
  | reg (r : Reg)
  | mem (m : Mem)
  /-- A constant, extended by its sign to the width of the operation. -/
  | imm (value : BitVec 32)
  deriving DecidableEq, Repr

structure Assembler where
  buffer : CodeBuffer
  /-- Bytes of refused instructions that are still to go out. -/
  residue : List Byte
  /-- How many instructions were encoded. -/
  count : Nat
  deriving DecidableEq, Repr

abbrev Asm := EStateM CompileError Assembler

namespace Assembler

def new (capacity : Nat) : Assembler := ⟨.new capacity, [], 0⟩

def size (a : Assembler) : Nat := a.buffer.size

def isEmpty (a : Assembler) : Bool := a.buffer.isEmpty

def finalize (a : Assembler) : Except CompileError Code := a.buffer.finalize

/-- Hardware number of a register that has to be of a class. -/
def number (expected : RegClass) (r : Reg) : Except CompileError RegNum :=
  if r.regClass ≠ expected then .error (.encoding (.wrongClass r expected))
  else if r.id < 16 then .ok (BitVec.ofNat 4 r.id)
  else .error (.encoding (.invalidRegister r))

abbrev general : Reg → Except CompileError RegNum := number .general
abbrev vector : Reg → Except CompileError RegNum := number .float

def address (m : Mem) : Except CompileError Address := do
  let base ← general m.base
  match m.index with
  | none => return ⟨base, none, BitVec.ofInt 32 m.disp⟩
  | some (r, scale) => do
    let index ← general r
    return ⟨base, some (index, scale), BitVec.ofInt 32 m.disp⟩

/-- A register or memory source of an instruction that takes no constant. -/
def regMem (form : String) (c : RegClass) : Operand → Except CompileError RegMem
  | .reg r => (number c r).map .reg
  | .mem m => (address m).map .mem
  | .imm _ => .error (.encoding (.immediateOperand form))

def onBuffer {α : Type} (m : CodeBuffer.Emit α) : Asm α := fun ⟨buffer, residue, count⟩ =>
  match m buffer with
  | .ok x buffer => .ok x ⟨buffer, residue, count⟩
  | .error e buffer => .error e ⟨buffer, residue, count⟩

/-- Counts one instruction, which may still not fit. -/
def counted : Asm Unit := modify fun a => { a with count := a.count + 1 }

def emit (i : Instruction) : Asm Unit := do
  match i.refused? with
  | some position =>
    modify fun a => { a with residue := a.residue ++ i.refusedBytes }
    throw (.encoding (.stackPointerIndex position))
  | none =>
    let residue := (← get).residue
    modify fun a => { a with residue := [] }
    counted
    onBuffer (CodeBuffer.emit (residue ++ i.encode))

/-! ## Moves -/

/-- Loads a constant in the shortest form that keeps the flags. -/
def movImm (dst : Reg) (value : Word) : Asm Unit := do
  let d ← general dst
  if (value.setWidth 32).setWidth 64 = value then emit (.movUnsigned d (value.setWidth 32))
  else if (value.setWidth 32).signExtend 64 = value then
    emit (.movSigned (.reg d) (value.setWidth 32))
  else emit (.movFull d value)

/-- A 64-bit move; a move to the same register is dropped. -/
def mov (dst : Reg) (src : Operand) : Asm Unit := do
  let d ← general dst
  match src with
  | .imm value => movImm dst (value.signExtend 64)
  | .mem m => do
    let a ← address m
    emit (.mov d (.mem a))
  | .reg r =>
    if r = dst then return
    let s ← general r
    emit (.mov d (.reg s))

def store (m : Mem) (src : Reg) : Asm Unit := do
  let a ← address m
  let s ← general src
  emit (.store (.mem a) s)

/-- Stores a constant, extended by its sign to 64 bits. -/
def storeImm (m : Mem) (value : BitVec 32) : Asm Unit := do
  let a ← address m
  emit (.movSigned (.mem a) value)

def extend (kind : Extension) (dst src : Reg) : Asm Unit := do
  let d ← general dst
  let s ← general src
  emit (.extend kind d (.reg s))

/-- Loads from memory, 64 bits or a widened narrow value. -/
def load (kind : Option Extension) (dst : Reg) (m : Mem) : Asm Unit := do
  let a ← address m
  let d ← general dst
  match kind with
  | none => emit (.mov d (.mem a))
  | some k => emit (.extend k d (.mem a))

/-! ## Integer arithmetic -/

def alu (op : AluOp) (dst : Reg) (src : Operand) : Asm Unit := do
  let d ← general dst
  match src with
  | .imm value => emit (.aluImm op d value)
  | .reg r => do
    let s ← general r
    emit (.alu op d (.reg s))
  | .mem m => do
    let a ← address m
    emit (.alu op d (.mem a))

def imul (dst : Reg) (src : Operand) : Asm Unit := do
  let d ← general dst
  match src with
  | .imm value => emit (.imulImm d (.reg d) value)
  | .reg r => do
    let s ← general r
    emit (.imul d (.reg s))
  | .mem m => do
    let a ← address m
    emit (.imul d (.mem a))

def div (signed : Bool) (src : Operand) : Asm Unit := do
  let s ← regMem "div takes" .general src
  emit (.div signed s)

def cqo : Asm Unit := emit .cqo

def shiftCl (op : ShiftOp) (dst : Reg) : Asm Unit := do
  let d ← general dst
  emit (.shiftCl op d)

/-- Shifts by a constant, which counts modulo 64. -/
def shiftImm (op : ShiftOp) (dst : Reg) (count : Nat) : Asm Unit := do
  let d ← general dst
  emit (.shiftImm op d (BitVec.ofNat 8 (count % 64)))

def test (a b : Reg) : Asm Unit := do
  let x ← general a
  let y ← general b
  emit (.test x y)

def setcc (cond : Condition) (dst : Reg) : Asm Unit := do
  let d ← general dst
  emit (.setcc cond d)

def and8 (dst src : Reg) : Asm Unit := do
  let d ← general dst
  let s ← general src
  emit (.and8 d s)

def or8 (dst src : Reg) : Asm Unit := do
  let d ← general dst
  let s ← general src
  emit (.or8 d s)

/-! ## Scalar floats -/

def vectorSource : Operand → Except CompileError RegMem :=
  regMem "SSE instructions take" .float

def floatOp (op : FloatOp) (p : Precision) (dst : Reg) (src : Operand) : Asm Unit := do
  let d ← vector dst
  let s ← vectorSource src
  emit (.floatOp op p d s)

def ucomis (p : Precision) (a : Reg) (b : Operand) : Asm Unit := do
  let x ← vector a
  let y ← vectorSource b
  emit (.ucomis p x y)

/-- A float move; a move to the same register is dropped. -/
def movFloat (p : Precision) (dst : Reg) (src : Operand) : Asm Unit := do
  if src = .reg dst then return
  let d ← vector dst
  match ← (vectorSource src : Asm RegMem) with
  | .reg s => emit (.movaps d s)
  | .mem a => emit (.loadFloat p d a)

def storeFloat (m : Mem) (src : Reg) : Asm Unit := do
  let a ← address m
  let s ← vector src
  emit (.storeFloat a s)

def xorps (dst : Reg) : Asm Unit := do
  let d ← vector dst
  emit (.xorps d d)

/-- Moves raw bits from a general to a vector register. -/
def movBits (p : Precision) (dst src : Reg) : Asm Unit := do
  let d ← vector dst
  let s ← general src
  emit (.movBits p d s)

def intToFloat (p : Precision) (dst : Reg) (src : Operand) : Asm Unit := do
  let d ← vector dst
  let s ← regMem "cvtsi2s* takes" .general src
  emit (.intToFloat p d s)

def floatToInt (p : Precision) (dst : Reg) (src : Operand) : Asm Unit := do
  let d ← general dst
  let s ← regMem "cvtts*2si takes" .float src
  emit (.floatToInt p d s)

def convertFloat (p : Precision) (dst : Reg) (src : Operand) : Asm Unit := do
  let d ← vector dst
  let s ← vectorSource src
  emit (.convertFloat p d s)

/-! ## Stack and control flow -/

def push (r : Reg) : Asm Unit := do
  let n ← general r
  emit (.push n)

def pop (r : Reg) : Asm Unit := do
  let n ← general r
  emit (.pop n)

def ret : Asm Unit := emit .ret

def callReg (target : Reg) : Asm Unit := do
  let n ← general target
  emit (.callReg n)

def createLabel : Asm Nat := onBuffer CodeBuffer.createLabel

def bindLabel (label : Nat) : Asm Unit := onBuffer (CodeBuffer.bindLabel label)

def jump (label : Nat) : Asm Unit := do
  counted
  onBuffer (CodeBuffer.emitJump label)

def jumpIf (cond : Condition) (label : Nat) : Asm Unit := do
  counted
  onBuffer (CodeBuffer.emitJumpIf cond.code label)

/-- Appends position-independent code as it is. -/
def emitRaw (bytes : List Byte) : Asm Unit := onBuffer (CodeBuffer.emit bytes)

end Assembler

end NativeExpr.X64
