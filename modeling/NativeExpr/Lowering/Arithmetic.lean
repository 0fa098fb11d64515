import NativeExpr.Lowering.State

/-!
# Arithmetic, logic and comparisons

Two-operand instructions overwrite the register of their first operand when this
is its last read, and a copy of it otherwise. Operands of a commutative
operation change places when that saves a copy or a load of a constant. Division
uses `rax` and `rdx`, a variable shift `rcx`. Narrow results are widened again
wherever stray bits can appear above them.
-/
namespace NativeExpr.Lowering

open NativeExpr X64

def integerCondition : Predicate → Bool → Condition
  | .eq, _ => .e
  | .ne, _ => .ne
  | .lt, true => .l
  | .le, true => .le
  | .gt, true => .g
  | .ge, true => .ge
  | .lt, false => .b
  | .le, false => .be
  | .gt, false => .a
  | .ge, false => .ae

/-- Whether one condition decides the predicate; float equality also needs the
parity flag. -/
def isSingleCondition (pred : Predicate) (ty : ScalarType) : Bool :=
  !ty.isFloat || !(pred == .eq || pred == .ne)

/-- A two-operand integer instruction. -/
inductive IntegerOp
  | alu (op : AluOp)
  | mul
  deriving DecidableEq, Repr

namespace IntegerOp

def isCommutative : IntegerOp → Bool
  | alu op => op != .sub
  | mul => true

def emit (op : IntegerOp) (dst : Reg) (src : Operand) : Asm Unit :=
  match op with
  | alu op => Assembler.alu op dst src
  | mul => Assembler.imul dst src

end IntegerOp

variable (ctx : Context) (gen : NodeId → Lower Unit)

/-- Whether commuting operands saves a copy or a load of a constant. -/
def prefersSwap (lhs rhs : NodeId) : Lower Bool := do
  if ← isImmediate lhs then
    return !(← isImmediate rhs)
  else
    return !(← isReusable lhs) && (← isReusable rhs)

def arrange (commutative : Bool) (lhs rhs : NodeId) : Lower (NodeId × NodeId) := do
  if commutative && (← prefersSwap lhs rhs) then return (rhs, lhs) else return (lhs, rhs)

/-- Code for a two-operand instruction: the first operand in a register that is
overwritten, the second read in place. -/
def lowerBinary (id lhs rhs : NodeId) (commutative : Bool) (instr : Reg → Operand → Asm Unit) :
    Lower Reg := do
  gen lhs
  gen rhs
  let (a, b) ← arrange commutative lhs rhs
  let dst ← withLocked b (takeOrCopy ctx a id)
  let src ← operand b
  emit (instr dst src)
  consume b
  return dst

/-- Integer operations; `widens` tells whether the result may leave its type. -/
def lowerInteger (id : NodeId) (op : IntegerOp) (widens : Bool) (lhs rhs : NodeId)
    (ty : ScalarType) : Lower Unit := do
  let dst ← lowerBinary ctx gen id lhs rhs op.isCommutative op.emit
  if widens then normalize dst ty
  define id dst

/-- The divisor as an operand; a constant goes through the scratch register. -/
def divisorOperand (rhs : NodeId) : Lower Operand := do
  match ← operand rhs with
  | .imm value =>
    emit (Assembler.movImm .scratch (value.signExtend 64))
    return .reg .scratch
  | src => return src

def lowerDivision (id : NodeId) (quotient : Bool) (lhs rhs : NodeId) (ty : ScalarType) :
    Lower Unit := do
  gen lhs
  gen rhs
  evict .rax
  evict .rdx
  onRegs (RegisterFile.take .rax .temp)
  onRegs (RegisterFile.take .rdx .temp)
  let divisor ← divisorOperand rhs
  let dividend ← operand lhs
  emit (Assembler.mov .rax dividend)
  if ty.isSigned then emit Assembler.cqo else emit (Assembler.movImm .rdx 0)
  emit (Assembler.div ty.isSigned divisor)
  consume lhs
  consume rhs
  let (result, unused) := if quotient then (Reg.rax, Reg.rdx) else (Reg.rdx, Reg.rax)
  onRegs (RegisterFile.free unused)
  normalize result ty
  define id result

def shiftOp (left : Bool) (ty : ScalarType) : ShiftOp :=
  if left then .shl else if ty.isSigned then .sar else .shr

def lowerShift (id : NodeId) (left : Bool) (lhs rhs : NodeId) (ty : ScalarType) :
    Lower Unit := do
  gen lhs
  gen rhs
  let dst ←
    match ← storage rhs with
    | .immediate count => do
      let dst ← takeOrCopy ctx lhs id
      emit (Assembler.shiftImm (shiftOp left ty) dst (count.toNat % 64))
      consume rhs
      pure dst
    | _ => do
      evict .rcx
      onRegs (RegisterFile.take .rcx .temp)
      let count ← operand rhs
      emit (Assembler.mov .rcx count)
      consume rhs
      let dst ← takeOrCopy ctx lhs id
      emit (Assembler.shiftCl (shiftOp left ty) dst)
      onRegs (RegisterFile.free .rcx)
      pure dst
  if left then normalize dst ty
  define id dst

def lowerFloat (id : NodeId) (op : ArithOp) (lhs rhs : NodeId) (ty : ScalarType)
    (p : Precision) : Lower Unit := do
  match op.float? with
  | none => throw (.unsupported (.nativeRemainder ty))
  | some f =>
    let dst ← lowerBinary ctx gen id lhs rhs op.isCommutative (Assembler.floatOp f p)
    define id dst

def lowerArith (id : NodeId) (op : ArithOp) (lhs rhs : NodeId) (ty : ScalarType) :
    Lower Unit :=
  match ty.precision? with
  | some p => lowerFloat ctx gen id op lhs rhs ty p
  | none =>
    match op with
    | .add => lowerInteger ctx gen id (.alu .add) true lhs rhs ty
    | .sub => lowerInteger ctx gen id (.alu .sub) true lhs rhs ty
    | .mul => lowerInteger ctx gen id .mul true lhs rhs ty
    | .div => lowerDivision gen id true lhs rhs ty
    | .rem => lowerDivision gen id false lhs rhs ty

def lowerLogic (id : NodeId) (op : LogicOp) (lhs rhs : NodeId) (ty : ScalarType) : Lower Unit :=
  match op with
  | .and => lowerInteger ctx gen id (.alu .and) false lhs rhs ty
  | .or => lowerInteger ctx gen id (.alu .or) false lhs rhs ty
  | .xor => lowerInteger ctx gen id (.alu .xor) false lhs rhs ty
  | .shl => lowerShift ctx gen id true lhs rhs ty
  | .shr => lowerShift ctx gen id false lhs rhs ty

/-- The vector register of a float value, which is loaded into the scratch
register if it is in none. -/
def floatRegister (p : Precision) (id : NodeId) : Lower Reg := do
  match ← operand id with
  | .reg r => return r
  | src =>
    emit (Assembler.movFloat p .floatScratch src)
    return .floatScratch

/-- How a float comparison is made: which operand comes first and the condition
that holds when the predicate does. Only the conditions of "above" are false for
values without an order, so "less" compares the other way round. -/
def floatComparison (pred : Predicate) (lhs rhs : NodeId) : NodeId × NodeId × Condition :=
  match pred with
  | .gt => (lhs, rhs, .a)
  | .ge => (lhs, rhs, .ae)
  | .lt => (rhs, lhs, .a)
  | .le => (rhs, lhs, .ae)
  | .eq => (lhs, rhs, .e)
  | .ne => (lhs, rhs, .ne)

def emitComparison (pred : Predicate) (lhs rhs : NodeId) : Lower Condition := do
  let ty ← ctx.graph.typeOf lhs
  match ty.precision? with
  | none => do
    let a ← generalRegister lhs
    let b ← operand rhs
    emit (Assembler.alu .cmp a b)
    return integerCondition pred ty.isSigned
  | some p => do
    let (first, second, cond) := floatComparison pred lhs rhs
    let a ← floatRegister p first
    let b ← operand second
    emit (Assembler.ucomis p a b)
    return cond

/-- The truth value of a predicate as 0 or 1. The register is cleared before the
comparison, because a condition is written to its low byte only. -/
def lowerCompare (id : NodeId) (pred : Predicate) (lhs rhs : NodeId) : Lower Unit := do
  gen lhs
  gen rhs
  let ty ← ctx.graph.typeOf lhs
  let dst ← withLocked lhs (withLocked rhs (allocResult ctx id .general))
  emit (Assembler.movImm dst 0)
  let cond ← emitComparison ctx pred lhs rhs
  match pred, ty.isFloat with
  | .eq, true => do
    emit (Assembler.setcc .e dst)
    emit (Assembler.setcc .np .scratch)
    emit (Assembler.and8 dst .scratch)
  | .ne, true => do
    emit (Assembler.setcc .ne dst)
    emit (Assembler.setcc .p .scratch)
    emit (Assembler.or8 dst .scratch)
  | _, _ => emit (Assembler.setcc cond dst)
  consume lhs
  consume rhs
  define id dst

end NativeExpr.Lowering
