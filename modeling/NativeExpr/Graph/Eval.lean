import NativeExpr.Graph.Builder
import NativeExpr.Graph.Operation

/-!
# Evaluation

The reference evaluator computes the value of a node on demand, operands from
left to right and only the selected arm of a conditional, and keeps every value
it has found. Loads need a memory; without one they are refused, and native
calls are always refused. Operands stand before the nodes that use them, so the
position of the root bounds the depth of the recursion.
-/
namespace NativeExpr

/-- What an evaluation reads. -/
structure Scope where
  graph : Graph
  args : List Value
  memory : Option Memory

/-- Evaluation with the values found so far, one entry a node. -/
abbrev Eval := EStateM CompileError (Array (Option Value))

namespace Scope

/-- Arguments must match the declared parameters in number and type. -/
def checkArgs (s : Scope) : Except CompileError Unit :=
  let declared := s.graph.paramTypes
  if s.args.length ≠ declared.length then
    .error (.invalidParameter s.args.length declared.length)
  else
    match (s.args.zip declared).find? fun (arg, ty) => arg.ty != ty with
    | some (arg, ty) => .error (.typeMismatch (.argument arg.ty ty))
    | none => .ok ()

def load (s : Scope) (ty : ScalarType) (address : Word) : Except CompileError Value :=
  match s.memory with
  | some m => .ok (.load m ty address)
  | none => .error (.unsupported .memoryAccess)

def evalNode (s : Scope) (value : NodeId → Eval Value) (n : Node) : Eval Value :=
  match n.kind with
  | .immediate (.int v) => return .ofRaw n.ty v
  | .immediate (.float p) => return .ofDouble n.ty p
  | .parameter index =>
    match s.args[index]? with
    | some v => return v
    | none => throw (.invalidParameter index s.args.length)
  | .arith op lhs rhs => do
    let a ← value lhs
    let b ← value rhs
    Value.arith op n.ty a b
  | .logic op lhs rhs => do
    let a ← value lhs
    let b ← value rhs
    return .logic op n.ty a b
  | .compare pred lhs rhs => do
    let a ← value lhs
    let b ← value rhs
    return .compare pred a b
  | .select cond thenValue elseValue => do
    let c ← value cond
    if c.isTrue then value thenValue else value elseValue
  | .field base offset => do
    let b ← value base
    s.load n.ty (fieldAddress b.bits offset)
  | .element base index => do
    let b ← value base
    let i ← value index
    s.load n.ty (elementAddress b.bits i.bits n.ty)
  | .call target _ => throw (.unsupported (.foreignCall target))
  | .cast operand => do
    let v ← value operand
    v.cast n.ty

/-- The value of a node whose operands are nested at most `depth` deep. -/
def evalWithin (s : Scope) : Nat → NodeId → Eval Value
  | 0, id => throw (.unknownNode id)
  | depth + 1, id => do
    match (← get)[id]?.join with
    | some v => return v
    | none =>
      let n ← s.graph.node id
      let v ← s.evalNode (s.evalWithin depth) n
      modify fun found => found.setIfInBounds id (some v)
      return v

def eval (s : Scope) (root : NodeId) : Except CompileError Value := do
  s.checkArgs
  match s.evalWithin (root + 1) root (Array.replicate s.graph.size none) with
  | .ok v _ => return v
  | .error e _ => throw e

end Scope

/-- The value of `root` for the given arguments; loads are refused. -/
def Graph.evaluate (g : Graph) (root : NodeId) (args : List Value) : Except CompileError Value :=
  Scope.eval ⟨g, args, none⟩ root

/-- The value of `root` for the given arguments in a memory. -/
def Graph.evaluateIn (g : Graph) (memory : Memory) (root : NodeId) (args : List Value) :
    Except CompileError Value :=
  Scope.eval ⟨g, args, some memory⟩ root

end NativeExpr
