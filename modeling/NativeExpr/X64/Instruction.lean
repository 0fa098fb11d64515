import NativeExpr.Scalar.Precision

/-!
# Instructions

The x86-64 instructions that generated functions are made of, with hardware
register numbers and resolved operands. A branch carries its displacement from
the end of the instruction.
-/
namespace NativeExpr.X64

open NativeExpr

/-- Hardware number of a general or vector register. -/
abbrev RegNum := BitVec 4

namespace RegNum

abbrev stackPointer : RegNum := 4

def low (r : RegNum) : BitVec 3 := r.setWidth 3

def high (r : RegNum) : Bool := r.getLsbD 3

end RegNum

/-- Factor of an index register. -/
inductive Scale
  | one
  | two
  | four
  | eight
  deriving DecidableEq, Repr

namespace Scale

def log : Scale → BitVec 2
  | one => 0
  | two => 1
  | four => 2
  | eight => 3

def ofLog (n : BitVec 2) : Scale :=
  match n.toNat with
  | 0 => one
  | 1 => two
  | 2 => four
  | _ => eight

def factor : Scale → Nat
  | one => 1
  | two => 2
  | four => 4
  | eight => 8

def ofSize : Nat → Scale
  | 2 => two
  | 4 => four
  | 8 => eight
  | _ => one

end Scale

/-- The memory operand `[base + index * scale + disp]`. -/
structure Address where
  base : RegNum
  index : Option (RegNum × Scale)
  disp : BitVec 32
  deriving DecidableEq, Repr

/-- A register or memory operand. -/
inductive RegMem
  | reg (r : RegNum)
  | mem (a : Address)
  deriving DecidableEq, Repr

inductive AluOp
  | add
  | sub
  | and
  | or
  | xor
  | cmp
  deriving DecidableEq, Repr

inductive ShiftOp
  | shl
  | shr
  | sar
  deriving DecidableEq, Repr

/-- Widening of a narrow operand to a full register, by sign or by zeros. -/
inductive Extension
  | sx8
  | sx16
  | sx32
  | zx8
  | zx16
  | zx32
  deriving DecidableEq, Repr

inductive Condition
  | b
  | ae
  | e
  | ne
  | be
  | a
  | p
  | np
  | l
  | ge
  | le
  | g
  deriving DecidableEq, Repr

namespace Condition

def all : List Condition := [b, ae, e, ne, be, a, p, np, l, ge, le, g]

/-- The four-bit code of a condition in instructions. -/
def code : Condition → BitVec 4
  | b => 0x2
  | ae => 0x3
  | e => 0x4
  | ne => 0x5
  | be => 0x6
  | a => 0x7
  | p => 0xA
  | np => 0xB
  | l => 0xC
  | ge => 0xD
  | le => 0xE
  | g => 0xF

def ofCode? (n : BitVec 4) : Option Condition := all.find? fun c => c.code == n

def invert : Condition → Condition
  | b => ae
  | ae => b
  | e => ne
  | ne => e
  | be => a
  | a => be
  | p => np
  | np => p
  | l => ge
  | ge => l
  | le => g
  | g => le

def suffix : Condition → String
  | b => "b"
  | ae => "ae"
  | e => "e"
  | ne => "ne"
  | be => "be"
  | a => "a"
  | p => "p"
  | np => "np"
  | l => "l"
  | ge => "ge"
  | le => "le"
  | g => "g"

@[simp] theorem ofCode?_code (c : Condition) : ofCode? c.code = some c := by cases c <;> rfl

@[simp] theorem invert_invert (c : Condition) : c.invert.invert = c := by cases c <;> rfl

/-- The codes of a condition and its inverse differ in the lowest bit. -/
theorem code_invert (c : Condition) : c.invert.code = c.code ^^^ 1 := by cases c <;> rfl

end Condition

inductive Instruction
  | mov (dst : RegNum) (src : RegMem)
  | store (dst : RegMem) (src : RegNum)
  /-- A zero-extended 32-bit constant. -/
  | movUnsigned (dst : RegNum) (value : BitVec 32)
  /-- A sign-extended 32-bit constant. -/
  | movSigned (dst : RegMem) (value : BitVec 32)
  | movFull (dst : RegNum) (value : Word)
  | extend (kind : Extension) (dst : RegNum) (src : RegMem)
  | alu (op : AluOp) (dst : RegNum) (src : RegMem)
  | aluImm (op : AluOp) (dst : RegNum) (value : BitVec 32)
  | imul (dst : RegNum) (src : RegMem)
  | imulImm (dst : RegNum) (src : RegMem) (value : BitVec 32)
  /-- Division of `rdx:rax`. -/
  | div (signed : Bool) (src : RegMem)
  /-- Copies the sign of `rax` into `rdx`. -/
  | cqo
  | shiftCl (op : ShiftOp) (dst : RegNum)
  | shiftImm (op : ShiftOp) (dst : RegNum) (count : Byte)
  | test (a b : RegNum)
  | setcc (cond : Condition) (dst : RegNum)
  | and8 (dst src : RegNum)
  | or8 (dst src : RegNum)
  | floatOp (op : FloatOp) (p : Precision) (dst : RegNum) (src : RegMem)
  | ucomis (p : Precision) (a : RegNum) (b : RegMem)
  | movaps (dst src : RegNum)
  | loadFloat (p : Precision) (dst : RegNum) (src : Address)
  /-- Stores the low 64 bits of a vector register. -/
  | storeFloat (dst : Address) (src : RegNum)
  | xorps (dst src : RegNum)
  /-- Moves raw bits from a general to a vector register. -/
  | movBits (p : Precision) (dst src : RegNum)
  | intToFloat (p : Precision) (dst : RegNum) (src : RegMem)
  | floatToInt (p : Precision) (dst : RegNum) (src : RegMem)
  /-- Converts into a precision from the other one. -/
  | convertFloat (p : Precision) (dst : RegNum) (src : RegMem)
  | push (r : RegNum)
  | pop (r : RegNum)
  | ret
  | callReg (target : RegNum)
  | jump (displacement : BitVec 32)
  | jumpIf (cond : Condition) (displacement : BitVec 32)
  | nop
  deriving DecidableEq, Repr

namespace Instruction

/-- The memory operand and its position among the operands. -/
def memory? : Instruction → Option (Nat × Address)
  | mov _ (.mem a) | extend _ _ (.mem a) | alu _ _ (.mem a) | imul _ (.mem a)
  | imulImm _ (.mem a) _ | floatOp _ _ _ (.mem a) | ucomis _ _ (.mem a) | loadFloat _ _ a
  | intToFloat _ _ (.mem a) | floatToInt _ _ (.mem a) | convertFloat _ _ (.mem a) => some (1, a)
  | store (.mem a) _ | movSigned (.mem a) _ | div _ (.mem a) | storeFloat a _ => some (0, a)
  | _ => none

end Instruction

end NativeExpr.X64
