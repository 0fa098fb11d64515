import NativeExpr.Lowering.State

/-!
# Conversions

Between integers, truth values and addresses a value is widened to the new type,
and a truth value is a test for non-zero. Conversions to and from floats use the
signed 64-bit instructions, which leaves unsigned 64-bit integers without one.
-/
namespace NativeExpr.Lowering

open NativeExpr X64

variable (ctx : Context) (gen : NodeId → Lower Unit)

/-- An integer as the source of a conversion; a constant goes through the
scratch register. -/
def integerSource (value : NodeId) : Lower Operand := do
  match ← operand value with
  | .imm v =>
    emit (Assembler.movImm .scratch (v.signExtend 64))
    return .reg .scratch
  | src => return src

/-- A conversion that reads `value` and writes a new register. -/
def lowerConversion (id value : NodeId) (c : RegClass) (body : Reg → Lower Unit) :
    Lower Unit := do
  let dst ← withLocked value (allocResult ctx id c)
  body dst
  consume value
  define id dst

def lowerCast (id value : NodeId) (target : ScalarType) : Lower Unit := do
  gen value
  let source ← ctx.graph.typeOf value
  if source.lacksConversion target || (source.isFloat && target == .bool) then
    throw (.unsupported (.conversion source target))
  match source.precision?, target.precision? with
  | none, none => do
    let dst ← takeOrCopy ctx value id
    if target = .bool ∧ source ≠ .bool then
      emit (Assembler.test dst dst)
      emit (Assembler.setcc .ne dst)
      emit (Assembler.extend .zx8 dst dst)
    else normalize dst target
    define id dst
  | none, some q => lowerConversion ctx id value .float fun dst => do
    let src ← integerSource value
    emit (Assembler.intToFloat q dst src)
  | some p, none => lowerConversion ctx id value .general fun dst => do
    let src ← operand value
    emit (Assembler.floatToInt p dst src)
    normalize dst target
  | some p, some q =>
    if p = q then do
      let dst ← takeOrCopy ctx value id
      define id dst
    else lowerConversion ctx id value .float fun dst => do
      let src ← operand value
      emit (Assembler.convertFloat q dst src)

end NativeExpr.Lowering
