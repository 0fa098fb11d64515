import NativeExpr.Graph.Basic
import NativeExpr.Register.File

/-!
# Errors

Everything that can go wrong while a graph is built, evaluated or compiled, by
cause, and the wording of each.
-/
namespace NativeExpr

/-- A list of parameter types and a result type. -/
structure Signature where
  params : List ScalarType
  ret : ScalarType
  deriving DecidableEq, Repr

def Signature.describe (s : Signature) : String :=
  "fn(" ++ ", ".intercalate (s.params.map ScalarType.name) ++ ") -> " ++ s.ret.name

/-- Why operands of these types do not fit an operation. -/
inductive TypeFault
  | operandsDiffer (operation : String) (lhs rhs : ScalarType)
  | notNumeric (op : ArithOp) (ty : ScalarType)
  | notBitwise (op : LogicOp) (ty : ScalarType)
  | noComplement (ty : ScalarType)
  | integerLiteral (ty : ScalarType)
  | floatLiteral (ty : ScalarType)
  | condition (ty : ScalarType)
  | base (operation : String) (ty : ScalarType)
  | index (ty : ScalarType)
  | cast (source target : ScalarType)
  | argument (given declared : ScalarType)
  | result (root : NodeId) (ty ret : ScalarType)
  | signature (generated requested : Signature)
  deriving DecidableEq, Repr

namespace TypeFault

def operation : TypeFault → String
  | operandsDiffer operation .. | base operation _ => operation
  | notNumeric op _ => op.name
  | notBitwise op _ => op.name
  | noComplement _ => "not"
  | integerLiteral _ | floatLiteral _ => "imm"
  | condition _ => "select"
  | index _ => "element"
  | cast .. => "cast"
  | argument .. => "evaluate"
  | result .. => "compile"
  | signature .. => "signature"

def detail : TypeFault → String
  | operandsDiffer _ lhs rhs => s!"{lhs.name} vs {rhs.name}"
  | notNumeric _ ty => s!"{ty.name} operands are not numeric"
  | notBitwise op ty => s!"{ty.name} operands are not valid for {op.name}"
  | noComplement ty => s!"{ty.name} operand is not valid for not"
  | integerLiteral ty => s!"integer literal for {ty.name}"
  | floatLiteral ty => s!"float literal for {ty.name}"
  | condition ty => s!"condition is {ty.name}, expected bool"
  | base _ ty => s!"base is {ty.name}, expected ptr"
  | index ty => s!"index is {ty.name}, expected an integer"
  | cast source target => s!"cannot cast {source.name} to {target.name}"
  | argument given declared => s!"argument is {given.name}, parameter is {declared.name}"
  | result root ty ret => s!"root %{root} is {ty.name} but the function returns {ret.name}"
  | signature generated requested =>
    s!"code was generated for {generated.describe} but {requested.describe} was requested"

end TypeFault

/-- An operation that is well typed but cannot be carried out. -/
inductive Unsupported
  | divisionByZero (op : ArithOp)
  | quotientOverflow (op : ArithOp)
  | floatRemainder
  | nativeRemainder (ty : ScalarType)
  | foreignCall (target : Word)
  | memoryAccess
  | conversion (source target : ScalarType)
  deriving DecidableEq, Repr

namespace Unsupported

def operation : Unsupported → String
  | divisionByZero op | quotientOverflow op => op.name
  | floatRemainder | nativeRemainder _ => "rem"
  | foreignCall _ | memoryAccess => "evaluate"
  | conversion .. => "cast"

/-- Lower-case hexadecimal digits of a number, without leading zeros. -/
def hexDigits (n : Nat) : String := String.ofList (Nat.toDigits 16 n)

def detail : Unsupported → String
  | divisionByZero _ => "division by zero"
  | quotientOverflow _ => "quotient overflow"
  | floatRemainder => "floating-point remainder"
  | nativeRemainder ty => s!"{ty.name} remainder has no native instruction"
  | foreignCall target => s!"foreign call to 0x{hexDigits target.toNat} cannot be interpreted"
  | memoryAccess => "memory access requires evaluate_unchecked"
  | conversion source target => s!"{source.name} to {target.name} has no native conversion"

end Unsupported

/-- Why no register could be had. -/
inductive AllocationFault
  | file (cause : RegisterError)
  | unboundParameter (index : Nat)
  | lockedRegister (reg : Reg)
  | heldByTemporary (reg : Reg)
  | notGenerated (id : NodeId)
  deriving DecidableEq, Repr

def AllocationFault.message : AllocationFault → String
  | file cause => cause.message
  | unboundParameter index => s!"parameter {index} was not bound at entry"
  | lockedRegister reg => s!"cannot evict locked register {reg.describe}"
  | heldByTemporary reg => s!"{reg.describe} is held by a temporary"
  | notGenerated id => s!"%{id} used before it was generated"

/-- Why an instruction or a label has no encoding. -/
inductive EncodingFault
  | wrongClass (reg : Reg) (expected : RegClass)
  | invalidRegister (reg : Reg)
  /-- Instructions of this form have no immediate operand. -/
  | immediateOperand (form : String)
  /-- The stack pointer cannot be the index of the memory operand at this position. -/
  | stackPointerIndex (position : Nat)
  | boundTwice (label : Nat)
  | branchRange (label : Nat)
  deriving DecidableEq, Repr

def EncodingFault.message : EncodingFault → String
  | wrongClass reg expected => s!"{reg.describe} is not a {expected.name} register"
  | invalidRegister reg => s!"invalid register {reg.describe}"
  | immediateOperand form => s!"{form} no immediate operand"
  | stackPointerIndex position =>
    s!"Operand {position}: ESP/RSP can't be used as an index register"
  | boundTwice label => s!"label L{label} bound twice"
  | branchRange label => s!"branch to L{label} out of rel32 range"

/-- Why executable memory was refused. -/
inductive RegionFault
  | alreadyExecutable
  | mappingFailed
  deriving DecidableEq, Repr

def RegionFault.message : RegionFault → String
  | alreadyExecutable => "region is already executable"
  | mappingFailed => "mmap failed: Cannot allocate memory (os error 12)"

inductive CompileError
  | typeMismatch (fault : TypeFault)
  | invalidParameter (index count : Nat)
  | unknownNode (index : Nat)
  | unsupported (fault : Unsupported)
  | bufferOverflow (requested capacity : Nat)
  | allocatorExhausted (limit : Option Nat) (allocated : Nat)
  | unresolvedLabel (label : Nat)
  | registerAllocation (fault : AllocationFault)
  | encoding (fault : EncodingFault)
  | executableMemory (fault : RegionFault)
  deriving DecidableEq, Repr

def CompileError.message : CompileError → String
  | typeMismatch fault => s!"Type mismatch in {fault.operation}: {fault.detail}"
  | invalidParameter index count =>
    s!"Invalid parameter index {index} (function declares {count})"
  | unknownNode index => s!"Unknown node #{index}"
  | unsupported fault => s!"Unsupported operation {fault.operation}: {fault.detail}"
  | bufferOverflow requested capacity =>
    s!"Code buffer overflow: {requested} bytes requested, capacity is {capacity}"
  | allocatorExhausted limit allocated =>
    let bound :=
      match limit with
      | none => "None"
      | some n => s!"Some({n})"
    s!"Arena allocator exhausted ({allocated} bytes allocated, limit {bound})"
  | unresolvedLabel label => s!"Unresolved label L{label}"
  | registerAllocation fault => s!"Register allocation failed: {fault.message}"
  | encoding fault => s!"Instruction encoding failed: {fault.message}"
  | executableMemory fault => s!"Executable memory error: {fault.message}"

/-- A result without state used inside a computation with state. -/
instance liftExcept {ε σ : Type} : MonadLift (Except ε) (EStateM ε σ) where
  monadLift
    | .ok a => pure a
    | .error e => throw e

end NativeExpr
