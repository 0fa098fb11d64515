import NativeExpr.Proofs.Graph.Evaluation
import NativeExpr.Proofs.Schedule

/-!
# Evaluation with outside functions

The evaluator refuses calls. Where outside functions answer calls by the values of their
arguments, the plain rule gives calls values, too, and only the values that a conditional or an
operation needs are asked for. Without calls this is the plain rule of the evaluator.
-/
namespace NativeExpr

namespace Graph

/-- Where a node loads from, by the values of its operands. -/
inductive LoadsFrom (g : Graph) (value : NodeId → Except CompileError Value) (x : NodeId) :
    ScalarType → Word → Prop
  | field {base : NodeId} {offset : Int} {ty : ScalarType} {b : Value}
    (node : g.node? x = some ⟨.field base offset, ty⟩) (found : value base = .ok b) :
    LoadsFrom g value x ty (fieldAddress b.bits offset)
  | element {base index : NodeId} {ty : ScalarType} {b i : Value}
    (node : g.node? x = some ⟨.element base index, ty⟩) (found : value base = .ok b)
    (position : value index = .ok i) :
    LoadsFrom g value x ty (elementAddress b.bits i.bits ty)

/-- A node that divides integers which have no quotient, by the values of its operands. -/
inductive FailsAt (g : Graph) (value : NodeId → Except CompileError Value) (x : NodeId) : Prop
  | intro {op : ArithOp} {lhs rhs : NodeId} {ty : ScalarType} {a b : Value}
    (node : g.node? x = some ⟨.arith op lhs rhs, ty⟩) (integer : ty.isFloat = false)
    (division : op = .div ∨ op = .rem) (left : value lhs = .ok a) (right : value rhs = .ok b)
    (fault : b.bits = 0 ∨ ty.isSigned = true ∧ a.bits = BitVec.intMin 64 ∧ b.bits = -1)

variable {g : Graph} {value value' : NodeId → Except CompileError Value} {x : NodeId}
variable {ty : ScalarType} {address : Word}

theorem LoadsFrom.congr (same : ∀ y ∈ g.operandsOf x, value y = value' y)
    (h : g.LoadsFrom value x ty address) : g.LoadsFrom value' x ty address := by
  cases h with
  | field node found =>
    rw [operandsOf_eq node] at same
    exact .field node ((same _ (List.mem_singleton_self _)).symm.trans found)
  | element node found position =>
    rw [operandsOf_eq node] at same
    exact .element node ((same _ (List.mem_cons_self ..)).symm.trans found)
      ((same _ (List.mem_cons_of_mem _ (List.mem_singleton_self _))).symm.trans position)

theorem FailsAt.congr (same : ∀ y ∈ g.operandsOf x, value y = value' y) (h : g.FailsAt value x) :
    g.FailsAt value' x := by
  obtain ⟨node, integer, division, left, right, fault⟩ := h
  rw [operandsOf_eq node] at same
  exact .intro node integer division ((same _ (List.mem_cons_self ..)).symm.trans left)
    ((same _ (List.mem_cons_of_mem _ (List.mem_singleton_self _))).symm.trans right) fault

end Graph

namespace Scope

/-- The value of a node, given the values of its operands and the answers to calls. -/
def answeredNode (s : Scope) (answer : Call → Word)
    (value : NodeId → Except CompileError Value) (n : Node) : Except CompileError Value :=
  match n.kind with
  | .call target args => do
    let values ← args.mapM value
    .ok ⟨n.ty, n.ty.settle (answer ⟨target, values.map Value.unify, n.ty⟩)⟩
  | _ => s.nodeValue value n

/-- The value of a node whose operands are nested at most `depth` deep. -/
def answeredWithin (s : Scope) (answer : Call → Word) : Nat → NodeId → Except CompileError Value
  | 0, id => .error (.unknownNode id)
  | depth + 1, id => do
    let n ← s.graph.node id
    s.answeredNode answer (s.answeredWithin answer depth) n

/-- The value of a node where outside functions answer calls. -/
def answered (s : Scope) (answer : Call → Word) (id : NodeId) : Except CompileError Value :=
  s.answeredWithin answer (id + 1) id

variable {s : Scope} {answer : Call → Word} {n : Node} {id x y z : NodeId}

theorem answeredNode_of_ne (kind : ∀ target args, n.kind ≠ .call target args)
    (value : NodeId → Except CompileError Value) :
    s.answeredNode answer value n = s.nodeValue value n := by
  obtain ⟨kind', ty⟩ := n
  cases kind' with
  | call target args => exact absurd rfl (kind target args)
  | _ => rfl

theorem answeredNode_congr {f f' : NodeId → Except CompileError Value}
    (same : ∀ x ∈ n.operands, f x = f' x) :
    s.answeredNode answer f n = s.answeredNode answer f' n := by
  by_cases call : ∃ target args, n.kind = .call target args
  · obtain ⟨target, args, kind⟩ := call
    have operands : n.operands = args := by rw [Node.operands, kind]; rfl
    have values : args.mapM f = args.mapM f' := by
      rw [operands] at same
      clear kind operands
      induction args with
      | nil => rfl
      | cons x xs ih =>
        rw [List.mapM_cons, List.mapM_cons, same x (List.mem_cons_self ..),
          ih fun y hy => same y (List.mem_cons_of_mem _ hy)]
    simp only [answeredNode, kind, values]
  · have quiet (target args) : n.kind ≠ .call target args := fun kind => call ⟨target, args, kind⟩
    rw [answeredNode_of_ne quiet, answeredNode_of_ne quiet, nodeValue_congr same]

theorem answeredWithin_eq (w : s.graph.WellFormed) {depth : Nat} (h : id < depth) :
    s.answeredWithin answer depth id = s.answered answer id := by
  induction id using Nat.strong_induction_on generalizing depth with
  | h id ih =>
    obtain ⟨depth, rfl⟩ := Nat.exists_eq_add_one_of_ne_zero (Nat.ne_zero_of_lt h)
    rw [answered, answeredWithin, answeredWithin]
    cases hn : s.graph.node id with
    | error e => rfl
    | ok n =>
      have hn := Graph.node_eq_ok.1 hn
      refine answeredNode_congr fun x hx => ?_
      have before := w.operands_lt hn x hx
      rw [ih x before (Nat.lt_of_lt_of_le before (Nat.le_of_lt_succ h)), ih x before before]

theorem answered_eq (w : s.graph.WellFormed) (hn : s.graph.node? id = some n) :
    s.answered answer id = s.answeredNode answer (s.answered answer) n := by
  rw [answered, answeredWithin, Graph.node, hn]
  exact answeredNode_congr fun x hx => answeredWithin_eq w (w.operands_lt hn x hx)

theorem answered_eq_value (w : s.graph.WellFormed)
    (quiet : ∀ y n, s.graph.Reaches id y → s.graph.node? y = some n →
      ∀ target args, n.kind ≠ .call target args) :
    s.answered answer id = s.value id := by
  induction id using Nat.strong_induction_on with
  | h id ih =>
    cases hn : s.graph.node? id with
    | none =>
      rw [answered, answeredWithin, value, valueWithin, Graph.node, hn]
      rfl
    | some n =>
      rw [answered_eq w hn, value_eq w hn, answeredNode_of_ne (quiet id n .refl hn)]
      refine nodeValue_congr fun x hx => ih x (w.operands_lt hn x hx) fun y n r => quiet y n ?_
      exact (Graph.Reaches.of_operand (Graph.operandsOf_eq hn ▸ hx)).trans r

/-- The nodes that lazy evaluation needs for the value of a node: its operands, but of the arms
of a conditional the one that its condition selects. -/
inductive Needs (s : Scope) (answer : Call → Word) : NodeId → NodeId → Prop
  | operand {x y : NodeId} {n : Node} (node : s.graph.node? x = some n)
    (kind : ∀ cond thenValue elseValue, n.kind ≠ .select cond thenValue elseValue)
    (mem : y ∈ n.operands) : Needs s answer x y
  | condition {x cond thenValue elseValue : NodeId} {ty : ScalarType}
    (node : s.graph.node? x = some ⟨.select cond thenValue elseValue, ty⟩) : Needs s answer x cond
  | arm {x cond thenValue elseValue : NodeId} {ty : ScalarType} {c : Value}
    (node : s.graph.node? x = some ⟨.select cond thenValue elseValue, ty⟩)
    (found : s.answered answer cond = .ok c) :
    Needs s answer x (if c.isTrue then thenValue else elseValue)

end Scope

end NativeExpr
