import NativeExpr.Graph.Basic

/-!
# Counting uses

Operands stand before the nodes that use them, so one walk through the table
from its end visits every node after all of its users. A walk opens some of the
nodes it meets and counts one use for every operand entry of an opened node.
-/
namespace NativeExpr.Graph

open NativeExpr

def addUses (uses : Array Nat) (operands : List NodeId) : Array Nat :=
  operands.foldl (fun u id => u.modify id (· + 1)) uses

/-- Walks the nodes below `bound` from the last to the first; `opens id n` says
whether node `id` is opened when `n` uses of it have been counted. -/
def countUses (g : Graph) (opens : NodeId → Nat → Bool) : Nat → Array Nat → Array Nat
  | 0, uses => uses
  | id + 1, uses =>
    g.countUses opens id <|
      if opens id (uses.getD id 0) then addUses uses (g.operandsOf id) else uses

/-- For every node the operand entries that name it in nodes reachable from
`root`, and one more for the root itself. -/
def reachableUses (g : Graph) (root : NodeId) : Array Nat :=
  g.countUses (fun _ n => 0 < n) (root + 1) (addUses (Array.replicate g.size 0) [root])

/-- For every node the uses that come from the arm edge to `arm` or from nodes
that only the arm needs: those all of whose `remaining` uses are such. Nodes
without remaining uses are never opened. -/
def armUses (g : Graph) (remaining : NodeId → Nat) (arm : NodeId) : Array Nat :=
  g.countUses (fun id n => 0 < n && n == remaining id) (arm + 1)
    (addUses (Array.replicate g.size 0) [arm])

end NativeExpr.Graph
