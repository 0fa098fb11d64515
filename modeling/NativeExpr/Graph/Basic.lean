import NativeExpr.Scalar.Basic

/-!
# Expression graphs

A graph is a growing table of nodes. A node refers to its operands by their
positions in the table, so shared subexpressions are stored once, and an operand
stands before every node that uses it.
-/
namespace NativeExpr

/-- Position of a node in its graph. -/
abbrev NodeId := Nat

inductive ArithOp
  | add
  | sub
  | mul
  | div
  | rem
  deriving DecidableEq, Repr

namespace ArithOp

def all : List ArithOp := [add, sub, mul, div, rem]

def name : ArithOp → String
  | add => "add"
  | sub => "sub"
  | mul => "mul"
  | div => "div"
  | rem => "rem"

def isCommutative : ArithOp → Bool
  | add | mul => true
  | sub | div | rem => false

/-- The float operation; a remainder has none. -/
def float? : ArithOp → Option FloatOp
  | add => some .add
  | sub => some .sub
  | mul => some .mul
  | div => some .div
  | rem => none

end ArithOp

/-- Right shifts are arithmetic for signed types and logical for unsigned ones. -/
inductive LogicOp
  | and
  | or
  | xor
  | shl
  | shr
  deriving DecidableEq, Repr

namespace LogicOp

def all : List LogicOp := [and, or, xor, shl, shr]

def name : LogicOp → String
  | and => "and"
  | or => "or"
  | xor => "xor"
  | shl => "shl"
  | shr => "shr"

def isCommutative : LogicOp → Bool
  | and | or | xor => true
  | shl | shr => false

end LogicOp

inductive Predicate
  | eq
  | ne
  | lt
  | le
  | gt
  | ge
  deriving DecidableEq, Repr

namespace Predicate

def all : List Predicate := [eq, ne, lt, le, gt, ge]

def name : Predicate → String
  | eq => "eq"
  | ne => "ne"
  | lt => "lt"
  | le => "le"
  | gt => "gt"
  | ge => "ge"

/-- Whether the predicate holds of two values in the given order. Of values
without an order only "not equal" holds. -/
def holds : Predicate → Option Ordering → Bool
  | ne, none => true
  | _, none => false
  | eq, some o => o == .eq
  | ne, some o => o != .eq
  | lt, some o => o == .lt
  | le, some o => o != .gt
  | gt, some o => o == .gt
  | ge, some o => o != .lt

end Predicate

/-- A constant: a signed 64-bit integer or a double-precision pattern. -/
inductive Literal
  | int (value : Word)
  | float (pattern : Word)
  deriving DecidableEq, Repr

inductive NodeKind
  | immediate (value : Literal)
  | parameter (index : Nat)
  | arith (op : ArithOp) (lhs rhs : NodeId)
  | logic (op : LogicOp) (lhs rhs : NodeId)
  | compare (pred : Predicate) (lhs rhs : NodeId)
  /-- The first value if the condition is true, else the second. -/
  | select (cond thenValue elseValue : NodeId)
  /-- A load from `base + offset`. -/
  | field (base : NodeId) (offset : Int)
  /-- A load from `base + index * size`. -/
  | element (base index : NodeId)
  /-- A native call of the function at an address. -/
  | call (target : Word) (args : List NodeId)
  | cast (value : NodeId)
  deriving DecidableEq, Repr

namespace NodeKind

def name : NodeKind → String
  | immediate _ => "Immediate"
  | parameter _ => "Parameter"
  | arith .. => "BinaryArithmetic"
  | logic .. => "BinaryLogical"
  | compare .. => "Compare"
  | select .. => "Conditional"
  | field .. => "FieldDereference"
  | element .. => "ArrayElement"
  | call .. => "ForeignCall"
  | cast _ => "Cast"

/-- The operands in evaluation order, one entry per use. -/
def operands : NodeKind → List NodeId
  | immediate _ | parameter _ => []
  | arith _ lhs rhs | logic _ lhs rhs | compare _ lhs rhs => [lhs, rhs]
  | select cond thenValue elseValue => [cond, thenValue, elseValue]
  | field base _ => [base]
  | element base index => [base, index]
  | call _ args => args
  | cast value => [value]

end NodeKind

structure Node where
  kind : NodeKind
  ty : ScalarType
  deriving DecidableEq, Repr

/-- The operands in evaluation order, one entry per use. -/
def Node.operands (n : Node) : List NodeId := n.kind.operands

/-- An expression graph. `parents` counts, for every node, the distinct nodes
that have it as an operand. -/
structure Graph where
  nodes : Array Node
  parents : Array Nat
  params : List NodeId
  deriving DecidableEq, Repr

namespace Graph

def empty : Graph := ⟨#[], #[], []⟩

def size (g : Graph) : Nat := g.nodes.size

def isEmpty (g : Graph) : Bool := g.size == 0

def node? (g : Graph) (id : NodeId) : Option Node := g.nodes[id]?

/-- The operands of a node; none if the graph lacks the node. -/
def operandsOf (g : Graph) (id : NodeId) : List NodeId :=
  ((g.node? id).map Node.operands).getD []

def paramTypes (g : Graph) : List ScalarType :=
  g.params.filterMap fun id => (g.node? id).map Node.ty

/-- Adds a node at the end and counts it once as a parent of each of its operands. -/
def push (g : Graph) (n : Node) : Graph :=
  { g with
    nodes := g.nodes.push n
    parents := (n.operands.eraseDups.foldl (fun ps id => ps.modify id (· + 1)) g.parents).push 0 }

end Graph

end NativeExpr
