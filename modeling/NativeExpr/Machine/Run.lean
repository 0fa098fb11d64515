import NativeExpr.Machine.Foreign
import NativeExpr.Machine.Step

/-!
# Running a function

A generated function is entered with its arguments in place and a return address
outside the code, and runs until it returns there. Control may also go to code
around it, which comes back by itself. Generated branches only go forward, so
the size of the code bounds the number of steps.
-/
namespace NativeExpr.Machine

open NativeExpr X64

/-- The surroundings of a function: where its code is placed, where it returns to,
and the code outside it by address. A call comes back in a state that may depend
on the state it was entered in and on those of the calls before it, latest first. -/
structure Host where
  base : Word
  stop : Word
  callees : Word → Option (List State → State → State)

/-- A machine state with the states in which outside code was entered so far,
latest first. -/
structure Config where
  entered : List State
  state : State

inductive Outcome
  | returned (s : State)
  | divideError
  /-- The code left what this machine can run. -/
  | stuck

/-- One instruction, or the whole of a call outside the code. -/
def step (h : Host) (code : Array Byte) (c : Config) : Except Outcome Config :=
  let s := c.state
  if s.pc = h.stop then .error (.returned s)
  else
    match h.callees s.pc with
    | some f => .ok ⟨s :: c.entered, f c.entered s⟩
    | none =>
      match decodeAt code (s.pc - h.base).toNat with
      | none => .error .stuck
      | some (i, length) =>
        match exec s (s.pc + BitVec.ofNat 64 length) i with
        | none => .error .divideError
        | some s' => .ok ⟨c.entered, s'⟩

/-- Runs code for at most `steps` steps; gives the outcome and the states in which
outside code was entered, latest first. -/
def run (h : Host) (code : Array Byte) : Nat → Config → Outcome × List State
  | 0, c => (.stuck, c.entered)
  | steps + 1, c =>
    match step h code c with
    | .error outcome => (outcome, c.entered)
    | .ok c' => run h code steps c'

/-- As many steps as a function of this code may take. -/
def stepBound (code : Array Byte) : Nat := 2 * code.size + 2

/-! ## Calls from nothing -/

def codeBase : Word := 0x555500000000

def returnAddress : Word := 0x400000

def entryStack : Word := 0x7fff00000008

/-- The surroundings that hold the foreign functions of an environment. -/
def Environment.host (env : Environment) : Host where
  base := codeBase
  stop := returnAddress
  callees address := (env address).map fun f _ s => f.call s

def placeArgument (s : State) : ArgLocation × Word → State
  | (.register r, x) => s.setNamed r x
  | (.stack offset, x) => s.write (s.rsp + 8 + BitVec.ofNat 64 offset) x

/-- The state at the entry of a function with these parameters. -/
def entryState (memory : Memory) (types : List ScalarType) (args : List Word) : State :=
  let blank : State :=
    { general := Vector.replicate 16 0, vector := Vector.replicate 16 0, flags := .clear,
      memory, pc := codeBase }
  let s := (blank.setReg RegNum.stackPointer entryStack).write entryStack returnAddress
  ((Convention.argLocations (types.map ScalarType.regClass)).zip args).foldl placeArgument s

def call (env : Environment) (code : Array Byte) (memory : Memory) (types : List ScalarType)
    (args : List Word) : Outcome × List CallRecord :=
  let (outcome, entered) := run env.host code (stepBound code) ⟨[], entryState memory types args⟩
  (outcome, entered.reverse.filterMap fun s => (env s.pc).map fun f => f.record s)

def State.result (s : State) (ty : ScalarType) : Word :=
  match ty.precision? with
  | some p => s.readFloat p (.reg 0)
  | none => s.reg 0

end NativeExpr.Machine
