import NativeExpr.Lowering.Function
import NativeExpr.Region

/-!
# Compilation

Compiling a root generates its function, places it in executable memory and
enters the outcome in the statistics of the session. A typed compilation also
checks that the root has the result type of a signature.
-/
namespace NativeExpr

/-- Executable code with the signature it was generated for. -/
structure Compiled where
  region : Region
  signature : Signature
  frameSize : Nat
  stats : CodeStats
  deriving DecidableEq, Repr

def Statistics.recordFunction (s : Statistics) (size : Nat) (c : CodeStats) : Statistics :=
  { s with
    functionsCompiled := s.functionsCompiled + 1
    totalCodeSize := s.totalCodeSize + size
    largestFunction := max s.largestFunction size
    registersAllocated := s.registersAllocated + c.registers
    spills := s.spills + c.spills
    foreignCalls := s.foreignCalls + c.calls
    conditionals := s.conditionals + c.conditionals
    branchesPatched := s.branchesPatched + c.patched }

def Graph.compile (g : Graph) (root : NodeId) (o : Options) :
    EStateM CompileError Session Compiled := do
  let ret ← g.typeOf root
  let generated ← g.generate root o
  let region ← Region.withCode generated.image.bytes
  modify fun s => { s with stats := s.stats.recordFunction region.size generated.stats }
  return ⟨region, ⟨g.paramTypes, ret⟩, generated.image.frameSize, generated.stats⟩

/-- The code seen as a function of a signature, which must be its own. -/
def Compiled.typed (c : Compiled) (s : Signature) : Except CompileError Compiled :=
  if c.signature = s then .ok c else .error (.typeMismatch (.signature c.signature s))

def Graph.compileTyped (g : Graph) (s : Signature) (root : NodeId) (o : Options) :
    EStateM CompileError Session Compiled := do
  let ty ← g.typeOf root
  unless ty = s.ret do throw (.typeMismatch (.result root ty s.ret))
  let c ← g.compile root o
  c.typed s

end NativeExpr
