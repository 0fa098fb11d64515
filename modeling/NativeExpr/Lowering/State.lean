import NativeExpr.Frame
import NativeExpr.Graph.Builder
import NativeExpr.Storage

/-!
# The state of lowering

Lowering turns a graph into the body of a function. Its state is the code so
far, the occupied registers, the place of every generated value, the frame,
counters and a journal of what was done; the operations here move values between
registers and frame slots and keep these in step.
-/
namespace NativeExpr

/-- Counters of one generated function. -/
structure CodeStats where
  nodes : Nat
  registers : Nat
  spills : Nat
  calls : Nat
  conditionals : Nat
  fused : Nat
  hoisted : Nat
  patched : Nat
  instructions : Nat
  deriving DecidableEq, Repr

def CodeStats.zero : CodeStats := ⟨0, 0, 0, 0, 0, 0, 0, 0, 0⟩

namespace Lowering

open X64

/-- What stays fixed while one function is generated. -/
structure Context where
  graph : Graph
  root : NodeId
  fuse : Bool

/-- The two tables that tell what the registers hold. -/
structure Tables where
  regs : RegisterFile
  values : ValueTable

/-- A point of lowering: what the tables told there, the size of the code and the number of
entries in the journal. -/
structure Mark where
  tables : Tables
  offset : Nat
  noted : Nat

/-- Where the code of a conditional branches, where either arm ends and where both have met,
with the register of the result. -/
structure Meeting where
  result : Reg
  branch : Mark
  thenEnd : Mark
  elseEnd : Mark
  after : Mark

/-- An entry of the journal. -/
inductive Note
  /-- A node was asked for. -/
  | entered (id : NodeId) (tables : Tables)
  /-- A node that was asked for has its value. -/
  | answered (id : NodeId) (tables : Tables)
  /-- The code of a node was generated. -/
  | generated (id : NodeId)
  /-- A comparison became part of a branch. -/
  | fused (id : NodeId)
  /-- A value was read when so many reads of it were to come. -/
  | read (id : NodeId) (usesLeft : Nat)
  /-- The reads of a value to come before a branch and after either arm were combined. -/
  | merged (id : NodeId) (before thenLeft elseLeft : Nat)
  /-- The code of a conditional, begun at the first point, branched at the second. -/
  | forked (id : NodeId) (start branch : Mark)
  /-- The arms of a conditional met. -/
  | joined (id : NodeId) (meeting : Meeting)

structure State where
  asm : Assembler
  regs : RegisterFile
  values : ValueTable
  frame : Frame
  stats : CodeStats
  /-- What was done so far, the latest first. -/
  journal : List Note

/-- The point that lowering has come to. -/
def State.mark (s : State) : Mark :=
  ⟨⟨s.regs, s.values⟩, s.asm.buffer.size, s.journal.length⟩

abbrev Lower := EStateM CompileError State

variable {α : Type}

def emit (m : Asm α) : Lower α := fun ⟨asm, regs, values, frame, stats, journal⟩ =>
  match m asm with
  | .ok x asm => .ok x ⟨asm, regs, values, frame, stats, journal⟩
  | .error e asm => .error e ⟨asm, regs, values, frame, stats, journal⟩

def onRegs (m : EStateM RegisterError RegisterFile α) : Lower α :=
  fun ⟨asm, regs, values, frame, stats, journal⟩ =>
    match m regs with
    | .ok x regs => .ok x ⟨asm, regs, values, frame, stats, journal⟩
    | .error e regs =>
      .error (.registerAllocation (.file e)) ⟨asm, regs, values, frame, stats, journal⟩

def modifyValues (f : ValueTable → ValueTable) : Lower Unit :=
  modify fun ⟨asm, regs, values, frame, stats, journal⟩ =>
    ⟨asm, regs, f values, frame, stats, journal⟩

def modifyStats (f : CodeStats → CodeStats) : Lower Unit :=
  modify fun s => { s with stats := f s.stats }

def note (n : Note) : Lower Unit := modify fun s => { s with journal := n :: s.journal }

def noteTables (n : Tables → Note) : Lower Unit :=
  modify fun s => { s with journal := n ⟨s.regs, s.values⟩ :: s.journal }

def mark : Lower Mark := do return (← get).mark

def assignment (id : NodeId) : Lower Assignment := do return (← get).values.entry id

def owner (r : Reg) : Lower (Option Owner) := do return (← get).regs.owner r

def setStorage (id : NodeId) (storage : Storage) : Lower Unit :=
  modifyValues fun t => t.setStorage id (some storage)

def removeUse (id : NodeId) : Lower Unit := do
  note (.read id (← assignment id).usesLeft)
  modifyValues fun t => t.update id .removeUse

/-! ## Spilling and allocation -/

/-- The frame slot of a value; the first time a new one. -/
def spillSlot (id : NodeId) : Lower Int := do
  match (← assignment id).spillSlot with
  | some slot => return slot
  | none =>
    let slot := (← get).frame.newSlotOffset
    modify fun s => { s with frame := s.frame.addSlot }
    modifyValues fun t => t.setSpillSlot id (some slot)
    return slot

/-- Stores a register in the frame slot of the value it holds. -/
def spill (id : NodeId) (r : Reg) : Lower Unit := do
  let slot ← spillSlot id
  match r.regClass with
  | .general => emit (Assembler.store (.frame slot) r)
  | .float => emit (Assembler.storeFloat (.frame slot) r)
  setStorage id (.stack slot)
  modifyStats fun s => { s with spills := s.spills + 1 }

/-- A register for `owner`; a value evicted from it is spilled. -/
def alloc (c : RegClass) (owner : Owner) (preferred : Option Reg) : Lower Reg := do
  let a ← onRegs (RegisterFile.allocate c owner preferred)
  match a.evicted with
  | some victim => spill victim a.reg
  | none => pure ()
  return a.reg

/-- A temporary for the value of a node; the root is built in the return register. -/
def allocResult (ctx : Context) (id : NodeId) (c : RegClass) : Lower Reg :=
  alloc c .temp (if id = ctx.root then some (Convention.returnReg c) else none)

def evict (r : Reg) : Lower Unit := do
  match ← owner r with
  | none => return
  | some .temp => throw (.registerAllocation (.heldByTemporary r))
  | some (.value victim) =>
    if (← get).regs.isLocked r then throw (.registerAllocation (.lockedRegister r))
    spill victim r
    onRegs (RegisterFile.free r)

/-! ## Reading values -/

def storage (id : NodeId) : Lower Storage := do
  match (← assignment id).storage with
  | some s => return s
  | none => throw (.registerAllocation (.notGenerated id))

/-- A value as an operand of an instruction. -/
def operand (id : NodeId) : Lower Operand := do
  match ← storage id with
  | .register r => return .reg r
  | .stack offset => return .mem (.frame offset)
  | .immediate value => return .imm (value.setWidth 32)

/-- Whether the next read of a value is the last and finds it in a register. -/
def isReusable (id : NodeId) : Lower Bool := do
  let a ← assignment id
  return a.usesLeft == 1 && a.register?.isSome

def isImmediate (id : NodeId) : Lower Bool := do return (← assignment id).isImmediate

def lockValue (id : NodeId) : Lower (Option Reg) := do
  match (← assignment id).register? with
  | none => return none
  | some r =>
    if (← owner r) = some (.value id) then
      onRegs (RegisterFile.lock r)
      return some r
    else return none

def unlock (r : Option Reg) : Lower Unit :=
  match r with
  | some r => onRegs (RegisterFile.unlock r)
  | none => return

def withLocked (id : NodeId) (m : Lower α) : Lower α := do
  let locked ← lockValue id
  let x ← m
  unlock locked
  return x

/-- One read of a value; the last one releases its register. -/
def consume (id : NodeId) : Lower Unit := do
  removeUse id
  let a ← assignment id
  if a.isDead then
    match a.register? with
    | some r => if (← owner r) = some (.value id) then onRegs (RegisterFile.free r)
    | none => return

def copyTo (dst : Reg) (ty : ScalarType) (src : Operand) : Lower Unit :=
  match ty.precision? with
  | some p => emit (Assembler.movFloat p dst src)
  | none => emit (Assembler.mov dst src)

/-- Reads a value into a register that may be overwritten and is to hold the
value of `result`: on the last read the register it is in, else a copy. -/
def takeOrCopy (ctx : Context) (id result : NodeId) : Lower Reg := do
  let ty ← ctx.graph.typeOf id
  let a ← assignment id
  let own ←
    match a.register? with
    | some r => do
      let s ← get
      let free := s.regs.owner r == some (.value id) && !s.regs.isLocked r
      pure (if a.usesLeft == 1 && free then some r else none)
    | none => pure none
  match own with
  | some r =>
    onRegs (RegisterFile.reassign r .temp)
    removeUse id
    return r
  | none =>
    let r ← allocResult ctx result ty.regClass
    let src ← operand id
    copyTo r ty src
    consume id
    return r

/-- The general register of a value, which is loaded into the scratch register
if it is in none. -/
def generalRegister (id : NodeId) : Lower Reg := do
  match ← operand id with
  | .reg r => return r
  | src =>
    emit (Assembler.mov .scratch src)
    return .scratch

/-- The widening that makes a narrow integer canonical. -/
def extension : ScalarType → Option Extension
  | .i8 => some .sx8
  | .i16 => some .sx16
  | .i32 => some .sx32
  | .bool | .u8 => some .zx8
  | .u16 => some .zx16
  | .u32 => some .zx32
  | .i64 | .u64 | .f32 | .f64 | .ptr => none

def normalize (r : Reg) (ty : ScalarType) : Lower Unit :=
  match extension ty with
  | some kind => emit (Assembler.extend kind r r)
  | none => return

/-- Turns a temporary into the value of a node. -/
def define (id : NodeId) (r : Reg) : Lower Unit := do
  onRegs (RegisterFile.reassign r (.value id))
  setStorage id (.register r)

end Lowering

end NativeExpr
