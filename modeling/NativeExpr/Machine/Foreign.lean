import NativeExpr.Convention
import NativeExpr.Machine.State
import NativeExpr.Scalar.Basic

/-!
# Foreign functions

A function outside the generated code reads its arguments where the calling
convention puts them, leaves its result in the return register and returns. It
keeps the registers that a callee has to keep and nothing else.
-/
namespace NativeExpr.Machine

open NativeExpr X64

def State.named (s : State) (r : Reg) : Word :=
  match r.regClass with
  | .general => s.reg (BitVec.ofNat 4 r.id)
  | .float => s.xmm (BitVec.ofNat 4 r.id)

def State.setNamed (s : State) (r : Reg) (x : Word) : State :=
  match r.regClass with
  | .general => s.setReg (BitVec.ofNat 4 r.id) x
  | .float => s.setXmm (BitVec.ofNat 4 r.id) x

/-- The argument at a location, at the entry of a function: stack arguments lie
behind the return address. -/
def State.argument (s : State) : ArgLocation → Word
  | .register r => s.named r
  | .stack offset => s.memory.load (s.rsp + 8 + BitVec.ofNat 64 offset) 8

def State.arguments (s : State) (types : List ScalarType) : List Word :=
  (Convention.argLocations (types.map ScalarType.regClass)).map s.argument

/-- A function outside the generated code. -/
structure Foreign where
  name : String
  params : List ScalarType
  ret : ScalarType
  result : List Word → Word

abbrev Environment := Word → Option Foreign

/-- One call of a foreign function: its name and its first argument. -/
structure CallRecord where
  name : String
  first : Word
  deriving DecidableEq, Repr

/-- What registers that a call does not keep hold after it. -/
def clobbered : Word := 0x5bd1e9955bd1e995

/-- The first argument as it is recorded: float patterns with NaN unified. -/
def recordedArgument (types : List ScalarType) (args : List Word) : Word :=
  match types, args with
  | ty :: _, x :: _ =>
    match ty.precision? with
    | some p => p.unifyNaN (x.setWidth p.width |>.setWidth 64)
    | none => x
  | _, _ => 0

namespace Foreign

/-- The state after a call that starts in `s`, back at the return address. -/
def call (f : Foreign) (s : State) : State :=
  let lost := Convention.callerSaved.foldl (fun t r => t.setNamed r clobbered) s
  let lost := ((List.range 16).map Reg.xmm).foldl (fun t r => t.setNamed r clobbered) lost
  let (returnAddress, back) := lost.pop
  let result :=
    back.setNamed (Convention.returnReg f.ret.regClass) (f.result (s.arguments f.params))
  result.setPc returnAddress

def record (f : Foreign) (s : State) : CallRecord :=
  ⟨f.name, recordedArgument f.params (s.arguments f.params)⟩

end Foreign

end NativeExpr.Machine
