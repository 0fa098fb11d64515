import NativeExpr.Lowering.State

/-!
# Native calls

All arguments are generated first. Then every value in a register that the call
may clobber is spilled, which leaves the argument registers free, so arguments
move straight to their places. Stack arguments go to an aligned area below the
frame. A narrow result is widened, because a callee defines its low bits only.
-/
namespace NativeExpr.Lowering

open NativeExpr X64

variable (ctx : Context) (gen : NodeId → Lower Unit)

/-- Vacates every register that a call may clobber. -/
def spillCallerSaved : Lower Unit := do
  ((← get).regs.allocatedIn .general).forM fun r =>
    if Convention.isCallerSaved r then evict r else return
  ((← get).regs.allocatedIn .float).forM evict

def storeOutgoing (arg : NodeId) (ty : ScalarType) (slot : Mem) : Lower Unit := do
  match ← operand arg with
  | .reg r =>
    if ty.isFloat then emit (Assembler.storeFloat slot r) else emit (Assembler.store slot r)
  | .imm value => emit (Assembler.storeImm slot value)
  | .mem src =>
    emit (Assembler.load none .scratch src)
    emit (Assembler.store slot .scratch)

/-- The arguments of a call with their types and places. -/
def placeArgs (args : List NodeId) (types : List ScalarType) :
    List (NodeId × ScalarType × ArgLocation) :=
  args.zip (types.zip (Convention.argLocations (types.map ScalarType.regClass)))

/-- Moves the stack pointer for the outgoing arguments. -/
def adjustStack (op : AluOp) (bytes : Nat) : Lower Unit :=
  if 0 < bytes then emit (Assembler.alu op .rsp (.imm (BitVec.ofNat 32 bytes))) else return

def storeStackArg : NodeId × ScalarType × ArgLocation → Lower Unit
  | (arg, ty, .stack offset) => storeOutgoing arg ty (.outgoing offset)
  | (_, _, .register _) => return

def moveRegisterArg : NodeId × ScalarType × ArgLocation → Lower Unit
  | (arg, ty, .register r) => do
    let src ← operand arg
    copyTo r ty src
  | (_, _, .stack _) => return

def lowerCall (id : NodeId) (target : Word) (args : List NodeId) (ret : ScalarType) :
    Lower Unit := do
  args.forM gen
  spillCallerSaved
  let types ← args.mapM fun arg => (ctx.graph.typeOf arg : Lower ScalarType)
  let places := placeArgs args types
  let stackBytes := Convention.alignStack (Convention.argBytes (types.map ScalarType.regClass))
  adjustStack .sub stackBytes
  places.forM storeStackArg
  places.forM moveRegisterArg
  emit (Assembler.movImm .scratch target)
  emit (Assembler.callReg .scratch)
  adjustStack .add stackBytes
  args.forM consume
  let result := Convention.returnReg ret.regClass
  onRegs (RegisterFile.take result .temp)
  normalize result ret
  modify fun s => { s with frame.makesCalls := true }
  modifyStats fun s => { s with calls := s.calls + 1 }
  define id result

end NativeExpr.Lowering
