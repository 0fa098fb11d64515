import NativeExpr.Error
import NativeExpr.Session

/-!
# Building graphs

Every factory checks the types of its operands before it asks the arena for
room, and adds its node last. A parameter node for each declared parameter
stands at the beginning of a graph.
-/
namespace NativeExpr

namespace Graph

def node (g : Graph) (id : NodeId) : Except CompileError Node :=
  match g.node? id with
  | some n => .ok n
  | none => .error (.unknownNode id)

def typeOf (g : Graph) (id : NodeId) : Except CompileError ScalarType :=
  (g.node id).map Node.ty

/-- The number of distinct nodes that use `id` as an operand. -/
def useCount (g : Graph) (id : NodeId) : Except CompileError Nat := do
  let _ ← g.node id
  return g.parents.getD id 0

def param (g : Graph) (index : Nat) : Except CompileError NodeId :=
  match g.params[index]? with
  | some id => .ok id
  | none => .error (.invalidParameter index g.params.length)

def sameType (g : Graph) (operation : String) (lhs rhs : NodeId) :
    Except CompileError ScalarType := do
  let a ← g.typeOf lhs
  let b ← g.typeOf rhs
  if a = b then return a else throw (.typeMismatch (.operandsDiffer operation a b))

def expectPtr (g : Graph) (operation : String) (base : NodeId) : Except CompileError Unit := do
  let ty ← g.typeOf base
  unless ty = .ptr do throw (.typeMismatch (.base operation ty))

end Graph

/-- A graph under construction in a session. -/
structure Draft where
  session : Session
  graph : Graph
  deriving DecidableEq, Repr

abbrev Builder := EStateM CompileError Draft

namespace Builder

/-- Takes room from the arena; without room the factory fails. -/
def reserve (request : Arena → Option Arena) : Builder Unit := do
  let d ← get
  match request d.session.arena with
  | some arena => set { d with session.arena := arena }
  | none =>
    throw (.allocatorExhausted d.session.arena.limit d.session.arena.allocated)

/-- Adds a node and gives its position. -/
def push (kind : NodeKind) (ty : ScalarType) : Builder NodeId := do
  reserve Arena.allocateNode
  let d ← get
  set { d with
    graph := d.graph.push ⟨kind, ty⟩
    session.stats := d.session.stats.recordNode kind.name }
  return d.graph.size

def declare (ty : ScalarType) : Builder Unit := do
  let d ← get
  let id ← push (.parameter d.graph.params.length) ty
  modify fun d => { d with graph.params := d.graph.params ++ [id] }

def start (params : List ScalarType) : Builder Unit := do
  modify fun d => { d with graph := .empty }
  params.forM declare

def imm (ty : ScalarType) (value : Literal) : Builder NodeId := do
  match value, ty.isFloat with
  | .int v, false => push (.immediate (.int (ty.canonical v))) ty
  | .float p, true => push (.immediate (.float p)) ty
  | .int _, true => throw (.typeMismatch (.integerLiteral ty))
  | .float _, false => throw (.typeMismatch (.floatLiteral ty))

def immI64 (value : Word) : Builder NodeId := imm .i64 (.int value)
def immI32 (value : Word) : Builder NodeId := imm .i32 (.int value)
def immU64 (value : Word) : Builder NodeId := imm .u64 (.int value)
def immPtr (address : Word) : Builder NodeId := imm .ptr (.int address)
def immBool (value : Bool) : Builder NodeId := imm .bool (.int (if value then 1 else 0))
def immF64 (pattern : Word) : Builder NodeId := imm .f64 (.float pattern)

/-- A single-precision constant; it is kept widened. -/
def immF32 (pattern : Word) : Builder NodeId :=
  imm .f32 (.float (Precision.convert .double pattern))

def arith (op : ArithOp) (lhs rhs : NodeId) : Builder NodeId := do
  let ty ← (← get).graph.sameType op.name lhs rhs
  unless ty.isInteger || ty.isFloat do throw (.typeMismatch (.notNumeric op ty))
  push (.arith op lhs rhs) ty

def logic (op : LogicOp) (lhs rhs : NodeId) : Builder NodeId := do
  let ty ← (← get).graph.sameType op.name lhs rhs
  unless ty.isInteger || (ty == .bool && op.isCommutative) do
    throw (.typeMismatch (.notBitwise op ty))
  push (.logic op lhs rhs) ty

/-- Bitwise complement, or negation of a truth value: an exclusive or with a
constant, which is built first. -/
def not (value : NodeId) : Builder NodeId := do
  let ty ← (← get).graph.typeOf value
  unless ty.isInteger || ty == .bool do throw (.typeMismatch (.noComplement ty))
  let ones ← imm ty (.int (if ty = .bool then 1 else -1))
  logic .xor value ones

def compare (pred : Predicate) (lhs rhs : NodeId) : Builder NodeId := do
  let _ ← (← get).graph.sameType pred.name lhs rhs
  push (.compare pred lhs rhs) .bool

def select (cond thenValue elseValue : NodeId) : Builder NodeId := do
  let g := (← get).graph
  let condType ← g.typeOf cond
  unless condType = .bool do throw (.typeMismatch (.condition condType))
  let ty ← g.sameType "select" thenValue elseValue
  push (.select cond thenValue elseValue) ty

def field (base : NodeId) (offset : Int) (ty : ScalarType) : Builder NodeId := do
  (← get).graph.expectPtr "field" base
  push (.field base offset) ty

def element (base index : NodeId) (ty : ScalarType) : Builder NodeId := do
  let g := (← get).graph
  g.expectPtr "element" base
  let indexType ← g.typeOf index
  unless indexType.isInteger do throw (.typeMismatch (.index indexType))
  push (.element base index) ty

/-- A call of the function at an address. Only the existence of the arguments is
checked; their list takes room in the arena before the node does. -/
def call (target : Word) (args : List NodeId) (ret : ScalarType) : Builder NodeId := do
  let g := (← get).graph
  args.forM fun arg => discard (g.node arg : Builder Node)
  reserve fun arena => arena.allocateOperands args.length
  push (.call target args) ret

def cast (value : NodeId) (ty : ScalarType) : Builder NodeId := do
  let source ← (← get).graph.typeOf value
  unless source.castAllowed ty do throw (.typeMismatch (.cast source ty))
  push (.cast value) ty

end Builder

end NativeExpr
