import NativeExpr.Convention
import NativeExpr.X64.Assembler

/-!
# Frames and functions

Spill slots grow downwards from the frame pointer, and the registers a function
has to keep are saved below them. A function whose body needs none of this is
the body and a return; any other gets a prologue and an epilogue.
-/
namespace NativeExpr

open X64

/-- What a function needs besides its body. -/
structure Frame where
  spillSlots : Nat
  /-- Registers to save, in the order they were noted. -/
  saved : List Reg
  makesCalls : Bool
  usesStackParams : Bool
  deriving DecidableEq, Repr

/-- A finished function. -/
structure FunctionImage where
  bytes : Array Byte
  frameSize : Nat
  prologueSize : Nat
  patched : Nat
  deriving DecidableEq, Repr

namespace Frame

def empty : Frame := ⟨0, [], false, false⟩

def newSlotOffset (f : Frame) : Int := -8 * (f.spillSlots + 1 : Nat)

def addSlot (f : Frame) : Frame := { f with spillSlots := f.spillSlots + 1 }

def save (f : Frame) (r : Reg) : Frame :=
  if f.saved.contains r then f else { f with saved := f.saved ++ [r] }

/-- Offset of the save slot of the `index`-th saved register. -/
def saveSlot (f : Frame) (index : Nat) : Int := -8 * (f.spillSlots + index + 1 : Nat)

/-- Bytes below the frame pointer for the spill slots and `saves` registers. -/
def sizeWith (f : Frame) (saves : Nat) : Nat := Convention.alignStack (8 * (f.spillSlots + saves))

def size (f : Frame) : Nat := f.sizeWith f.saved.length

def isNeeded (f : Frame) : Bool :=
  0 < f.spillSlots || !f.saved.isEmpty || f.makesCalls || f.usesStackParams

def saves (f : Frame) : List (Reg × Int) := f.saved.mapIdx fun i r => (r, f.saveSlot i)

def emitPrologue (f : Frame) : Asm Unit := do
  Assembler.push .rbp
  Assembler.mov .rbp (.reg .rsp)
  if 0 < f.size then Assembler.alu .sub .rsp (.imm (BitVec.ofNat 32 f.size))
  f.saves.forM fun (r, slot) => Assembler.store (.frame slot) r

def emitEpilogue (f : Frame) : Asm Unit := do
  f.saves.forM fun (r, slot) => Assembler.load none r (.frame slot)
  Assembler.mov .rsp (.reg .rbp)
  Assembler.pop .rbp
  Assembler.ret

/-- Prologue, body and epilogue; gives the size of the prologue. -/
def emitFunction (f : Frame) (body : Array Byte) : Asm Nat := do
  if f.isNeeded then
    f.emitPrologue
    let prologue := (← get).size
    Assembler.emitRaw body.toList
    f.emitEpilogue
    return prologue
  else
    Assembler.emitRaw body.toList
    Assembler.ret
    return 0

/-- Wraps a body into a function of at most `capacity` bytes. -/
def assemble (f : Frame) (body : Code) (capacity : Nat) : Except CompileError FunctionImage :=
  match f.emitFunction body.bytes (.new capacity) with
  | .error e _ => .error e
  | .ok prologue a => do
    let code ← a.finalize
    return {
      bytes := code.bytes
      frameSize := if f.isNeeded then f.size else 0
      prologueSize := prologue
      patched := body.patched }

end Frame

end NativeExpr
