import NativeExpr.Lowering.State

/-!
# Loads

A load reads exactly the bytes of its type and widens them. A constant index
becomes part of the displacement; an index in a register is scaled by the
instruction; any other address is computed in the scratch register.
-/
namespace NativeExpr.Lowering

open NativeExpr X64

variable (ctx : Context) (gen : NodeId → Lower Unit)

def emitLoad (dst : Reg) (ty : ScalarType) (address : Mem) : Lower Unit :=
  match ty.precision? with
  | some p => emit (Assembler.movFloat p dst (.mem address))
  | none => emit (Assembler.load (extension ty) dst address)

def lowerField (id base : NodeId) (offset : Int) (ty : ScalarType) : Lower Unit := do
  gen base
  let dst ← withLocked base (allocResult ctx id ty.regClass)
  let b ← generalRegister base
  emitLoad dst ty (.baseDisp b offset)
  consume base
  define id dst

/-- Whether an offset fits the displacement of a memory operand. -/
def fitsDisp (offset : Int) : Bool := fitsSigned 32 offset

/-- The memory operand of an array element of `size` bytes. -/
def elementOperand (base index : NodeId) (size : Nat) : Lower Mem := do
  let b ← operand base
  let i ← operand index
  let folded? : Option Int :=
    match i with
    | .imm value => some (value.toInt * size)
    | _ => none
  match folded?.filter fitsDisp with
  | some offset => do
    let r ← generalRegister base
    return .baseDisp r offset
  | none =>
    match b, i with
    | .reg r, .reg x => return .indexed r x (.ofSize size) 0
    | _, .reg x => do
      emit (Assembler.mov .scratch b)
      return .indexed .scratch x (.ofSize size) 0
    | _, _ => do
      emit (Assembler.mov .scratch i)
      if 1 < size then emit (Assembler.shiftImm .shl .scratch (Scale.ofSize size).log.toNat)
      emit (Assembler.alu .add .scratch b)
      return .baseDisp .scratch 0

def lowerElement (id base index : NodeId) (ty : ScalarType) : Lower Unit := do
  gen base
  gen index
  let dst ← withLocked base (withLocked index (allocResult ctx id ty.regClass))
  let address ← elementOperand base index ty.size
  emitLoad dst ty address
  consume base
  consume index
  define id dst

end NativeExpr.Lowering
