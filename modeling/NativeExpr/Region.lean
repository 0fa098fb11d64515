import NativeExpr.Error

/-!
# Executable memory

A region is a whole number of pages that code is written to and that then
becomes executable. It is never writable and executable at once.
-/
namespace NativeExpr

inductive Protection
  | readWrite
  | readExecute
  deriving DecidableEq, Repr

structure Region where
  capacity : Nat
  code : Array Byte
  protection : Protection
  deriving DecidableEq, Repr

namespace Region

def pageSize : Nat := 4096

/-- Bytes of addresses that a process can map. -/
def addressSpace : Nat := 1 <<< 47

def roundToPages (size : Nat) : Nat := (max size 1 + pageSize - 1) / pageSize * pageSize

def new (size : Nat) : Except CompileError Region :=
  let capacity := roundToPages size
  if capacity < addressSpace then .ok ⟨capacity, #[], .readWrite⟩
  else .error (.executableMemory .mappingFailed)

def size (r : Region) : Nat := r.code.size

def isEmpty (r : Region) : Bool := r.size == 0

def isExecutable (r : Region) : Bool := r.protection == .readExecute

/-- Replaces the code from the start of the region on. -/
def write (r : Region) (code : Array Byte) : Except CompileError Region :=
  if r.isExecutable then .error (.executableMemory .alreadyExecutable)
  else if r.capacity < code.size then .error (.bufferOverflow code.size r.capacity)
  else .ok { r with code }

def finalize (r : Region) : Region := { r with protection := .readExecute }

/-- An executable region that holds the given code. -/
def withCode (code : Array Byte) : Except CompileError Region := do
  let r ← new code.size
  let r ← r.write code
  return r.finalize

end Region

end NativeExpr
