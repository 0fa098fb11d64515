import NativeExpr.Arena

/-!
# Sessions

A session owns the arena of its graphs and the statistics of everything that was
built and compiled in it.
-/
namespace NativeExpr

/-- Running totals of one session. -/
structure Statistics where
  nodesBuilt : Nat
  /-- Nodes built of each kind, in the order of the kinds' names. -/
  byKind : List (String × Nat)
  functionsCompiled : Nat
  totalCodeSize : Nat
  largestFunction : Nat
  registersAllocated : Nat
  spills : Nat
  foreignCalls : Nat
  conditionals : Nat
  branchesPatched : Nat
  deriving DecidableEq, Repr, Inhabited

/-- Adds one to the count of a key in a list of counts sorted by key. -/
def countKey (key : String) : List (String × Nat) → List (String × Nat)
  | [] => [(key, 1)]
  | (k, n) :: rest =>
    if k = key then (k, n + 1) :: rest
    else if key < k then (key, 1) :: (k, n) :: rest
    else (k, n) :: countKey key rest

namespace Statistics

def zero : Statistics := ⟨0, [], 0, 0, 0, 0, 0, 0, 0, 0⟩

def recordNode (s : Statistics) (kind : String) : Statistics :=
  { s with nodesBuilt := s.nodesBuilt + 1, byKind := countKey kind s.byKind }

def lines (s : Statistics) : List String :=
  ["Compilation Statistics:", s!"  Nodes built: {s.nodesBuilt}"]
    ++ s.byKind.map (fun (kind, count) => s!"    {kind}: {count}")
    ++ [s!"  Functions compiled: {s.functionsCompiled}",
      s!"  Total code size: {s.totalCodeSize} bytes",
      s!"  Largest function: {s.largestFunction} bytes",
      s!"  Registers allocated: {s.registersAllocated}",
      s!"  Spills generated: {s.spills}",
      s!"  Foreign calls: {s.foreignCalls}",
      s!"  Conditionals: {s.conditionals}",
      s!"  Branches patched: {s.branchesPatched}"]

def render (s : Statistics) : String := "\n".intercalate s.lines

end Statistics

structure Session where
  arena : Arena
  stats : Statistics
  deriving DecidableEq, Repr, Inhabited

/-- A session whose arena holds at most `limit` bytes, if a limit is given. -/
def Session.new (limit : Option Nat) : Session := ⟨.empty limit, .zero⟩

end NativeExpr
