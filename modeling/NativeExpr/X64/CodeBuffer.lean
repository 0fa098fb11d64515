import NativeExpr.Error

/-!
# Code buffers

Machine code is appended to a buffer of fixed capacity. A branch to a label is
appended with a blank displacement; finishing the buffer fills in every one,
counted from the end of its branch.
-/
namespace NativeExpr.X64

open NativeExpr

/-- A branch whose displacement is still blank. -/
structure Patch where
  label : Nat
  /-- Offset of the displacement. -/
  field : Nat
  deriving DecidableEq, Repr

structure CodeBuffer where
  bytes : Array Byte
  capacity : Nat
  /-- The offset of every label, once it is bound. -/
  labels : Array (Option Nat)
  /-- The branches in the order they were appended. -/
  pending : Array Patch
  deriving DecidableEq, Repr

/-- Finished code. -/
structure Code where
  bytes : Array Byte
  patched : Nat
  deriving DecidableEq, Repr

namespace CodeBuffer

def new (capacity : Nat) : CodeBuffer := ⟨#[], capacity, #[], #[]⟩

def size (b : CodeBuffer) : Nat := b.bytes.size

def isEmpty (b : CodeBuffer) : Bool := b.size == 0

def offset? (b : CodeBuffer) (label : Nat) : Option Nat := b.labels[label]?.join

def isBound (b : CodeBuffer) (label : Nat) : Bool := (b.offset? label).isSome

abbrev Emit := EStateM CompileError CodeBuffer

/-- Appends bytes; what does not fit leaves the buffer as it was. -/
def emit (bytes : List Byte) : Emit Unit := fun b =>
  let requested := b.size + bytes.length
  if b.capacity < requested then .error (.bufferOverflow requested b.capacity) b
  else .ok () { b with bytes := b.bytes.appendList bytes }

def createLabel : Emit Nat := fun b =>
  .ok b.labels.size { b with labels := b.labels.push none }

def bindLabel (label : Nat) : Emit Unit := fun b =>
  if b.isBound label then .error (.encoding (.boundTwice label)) b
  else if label < b.labels.size then
    .ok () { b with labels := b.labels.setIfInBounds label (some b.size) }
  else .error (.unresolvedLabel label) b

/-- Appends a branch as a whole, its displacement blank. -/
def emitBranch (opcode : List Byte) (label : Nat) : Emit Unit := do
  emit (opcode ++ List.replicate 4 0)
  modify fun b => { b with pending := b.pending.push ⟨label, b.size - 4⟩ }

def emitJump (label : Nat) : Emit Unit := emitBranch [0xE9] label

/-- A conditional branch, by the code of its condition. -/
def emitJumpIf (code : BitVec 4) (label : Nat) : Emit Unit :=
  emitBranch [0x0F, 0x80 ||| code.setWidth 8] label

def overwrite (bytes : Array Byte) (offset : Nat) : List Byte → Array Byte
  | [] => bytes
  | b :: rest => overwrite (bytes.setIfInBounds offset b) (offset + 1) rest

/-- The displacement of a branch, if its label is bound and near enough. -/
def displacement (b : CodeBuffer) (patch : Patch) : Except CompileError (BitVec 32) :=
  match b.offset? patch.label with
  | none => .error (.unresolvedLabel patch.label)
  | some target =>
    let distance : Int := target - (patch.field + 4 : Nat)
    if fitsSigned 32 distance then .ok (BitVec.ofInt 32 distance)
    else .error (.encoding (.branchRange patch.label))

def applyPatch (b : CodeBuffer) (bytes : Array Byte) (patch : Patch) :
    Except CompileError (Array Byte) := do
  let d ← b.displacement patch
  return overwrite bytes patch.field (leBytes d 4)

/-- The code with every branch filled in, or the first branch that cannot be. -/
def finalize (b : CodeBuffer) : Except CompileError Code := do
  let bytes ← b.pending.toList.foldlM b.applyPatch b.bytes
  return ⟨bytes, b.pending.size⟩

end CodeBuffer

end NativeExpr.X64
