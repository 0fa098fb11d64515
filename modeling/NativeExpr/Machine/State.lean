import NativeExpr.X64.Instruction

/-!
# Machine states

The part of an x86-64 processor that generated code uses: sixteen general
registers, the low halves of sixteen vector registers, five flags, memory and
the address of the next instruction.
-/
namespace NativeExpr.Machine

open NativeExpr X64

structure Flags where
  carry : Bool
  zero : Bool
  sign : Bool
  overflow : Bool
  parity : Bool
  deriving DecidableEq, Repr

namespace Flags

def clear : Flags := ⟨false, false, false, false, false⟩

/-- Whether the number of ones in the low byte is even. -/
def evenParity (x : Word) : Bool :=
  ((List.range 8).filter fun i => x.getLsbD i).length % 2 == 0

def ofLogic (x : Word) : Flags := ⟨false, x == 0, x.msb, false, evenParity x⟩

def ofSub (x y : Word) : Flags :=
  ⟨x.toNat < y.toNat, x == y, (x - y).msb, x.ssubOverflow y, evenParity (x - y)⟩

def ofAdd (x y : Word) : Flags :=
  ⟨x.uaddOverflow y, x + y == 0, (x + y).msb, x.saddOverflow y, evenParity (x + y)⟩

/-- Flags after a float comparison; values without an order set all three. -/
def ofOrder : Option Ordering → Flags
  | none => ⟨true, true, false, false, true⟩
  | some .lt => ⟨true, false, false, false, false⟩
  | some .eq => ⟨false, true, false, false, false⟩
  | some .gt => clear

def holds (f : Flags) : Condition → Bool
  | .b => f.carry
  | .ae => !f.carry
  | .e => f.zero
  | .ne => !f.zero
  | .be => f.carry || f.zero
  | .a => !(f.carry || f.zero)
  | .p => f.parity
  | .np => !f.parity
  | .l => f.sign != f.overflow
  | .ge => f.sign == f.overflow
  | .le => f.zero || f.sign != f.overflow
  | .g => !(f.zero || f.sign != f.overflow)

theorem holds_invert (f : Flags) (c : Condition) : f.holds c.invert = !f.holds c := by
  obtain ⟨_, _, sign, overflow, _⟩ := f
  cases c <;> simp [holds, Condition.invert] <;> cases sign <;> cases overflow <;> rfl

end Flags

structure State where
  general : Vector Word 16
  /-- Low 64 bits of the vector registers. -/
  vector : Vector Word 16
  flags : Flags
  memory : Memory
  pc : Word

namespace State

variable (s : State)

def reg (r : RegNum) : Word := s.general.get ⟨r.toNat, r.isLt⟩

def setReg (r : RegNum) (x : Word) : State := { s with general := s.general.set r.toNat x r.isLt }

def xmm (r : RegNum) : Word := s.vector.get ⟨r.toNat, r.isLt⟩

def setXmm (r : RegNum) (x : Word) : State := { s with vector := s.vector.set r.toNat x r.isLt }

def rsp : Word := s.reg RegNum.stackPointer

def setFlags (f : Flags) : State := { s with flags := f }

def setPc (pc : Word) : State := { s with pc }

def address (a : Address) : Word :=
  let index :=
    match a.index with
    | some (r, scale) => s.reg r * BitVec.ofNat 64 scale.factor
    | none => 0
  s.reg a.base + index + a.disp.signExtend 64

/-- The low `n` bytes of a general register or memory operand. -/
def read (n : Nat) : RegMem → Word
  | .reg r => (s.reg r).setWidth (8 * n) |>.setWidth 64
  | .mem a => s.memory.load (s.address a) n

/-- A value of a precision in a vector register or in memory. -/
def readFloat (p : Precision) : RegMem → Word
  | .reg r => (s.xmm r).setWidth p.width |>.setWidth 64
  | .mem a => s.memory.load (s.address a) (p.width / 8)

/-- Writes a value of a precision to a vector register and keeps the bits above it. -/
def setScalar (p : Precision) (r : RegNum) (x : Word) : State :=
  match p with
  | .double => s.setXmm r x
  | .single => s.setXmm r (s.xmm r &&& 0xffffffff00000000 ||| (x.setWidth 32).setWidth 64)

/-- Writes the low byte of a general register and keeps the other bytes. -/
def setByte (r : RegNum) (x : Byte) : State :=
  s.setReg r (s.reg r &&& 0xffffffffffffff00 ||| x.setWidth 64)

def write (address x : Word) : State := { s with memory := s.memory.store address x }

def push (x : Word) : State :=
  let top := s.rsp - 8
  (s.setReg RegNum.stackPointer top).write top x

def pop : Word × State :=
  (s.memory.load s.rsp 8, s.setReg RegNum.stackPointer (s.rsp + 8))

end State

end NativeExpr.Machine
