import NativeExpr.X64.Instruction

/-!
# Machine code

The bytes of every instruction. An operand byte names one register and a
register or memory operand; a memory operand always carries a displacement, of
one byte if it fits and else of four, and a scale byte only with an index or a
base whose number needs one. A prefix carries the fourth bits of register
numbers and the 64-bit width, and is left out when it says nothing.

The stack pointer cannot be an index. An instruction that asks for it is
refused, and `refusedBytes` says what has been written by then.
-/
namespace NativeExpr.X64

open NativeExpr

/-- Two mode bits, the register field and the operand field. -/
def modrm (mode : BitVec 2) (reg rm : BitVec 3) : Byte :=
  mode.setWidth 8 <<< 6 ||| reg.setWidth 8 <<< 3 ||| rm.setWidth 8

def scaleByte (scale : BitVec 2) (index base : BitVec 3) : Byte :=
  scale.setWidth 8 <<< 6 ||| index.setWidth 8 <<< 3 ||| base.setWidth 8

/-- The width and extension prefix; left out if it says nothing and is not forced. -/
def rex (forced wide reg index base : Bool) : List Byte :=
  if forced || wide || reg || index || base then
    [0x40 ||| (BitVec.ofBool wide).setWidth 8 <<< 3 ||| (BitVec.ofBool reg).setWidth 8 <<< 2
      ||| (BitVec.ofBool index).setWidth 8 <<< 1 ||| (BitVec.ofBool base).setWidth 8]
  else []

/-- Whether a 32-bit number is the sign extension of its low byte. -/
def fitsByte (v : BitVec 32) : Bool := (v.setWidth 8).signExtend 32 == v

namespace Address

/-- The displacement: one byte if it fits, else four. -/
def dispBytes (a : Address) : List Byte :=
  if fitsByte a.disp then [a.disp.setWidth 8] else leBytes a.disp 4

/-- The operand byte with what belongs to it, for a memory operand. -/
def operandBytes (a : Address) (reg : BitVec 3) : List Byte :=
  let mode : BitVec 2 := if fitsByte a.disp then 1 else 2
  match a.index with
  | some (r, scale) =>
    modrm mode reg 4 :: scaleByte scale.log r.low a.base.low :: a.dispBytes
  | none =>
    if a.base.low = 4 then modrm mode reg 4 :: scaleByte 0 4 a.base.low :: a.dispBytes
    else modrm mode reg a.base.low :: a.dispBytes

def indexHigh (a : Address) : Bool := (a.index.map fun i => i.1.high).getD false

/-- Whether the address can be encoded: the stack pointer is no index. -/
def Encodable (a : Address) : Prop := ∀ i ∈ a.index, i.1 ≠ RegNum.stackPointer

instance (a : Address) : Decidable a.Encodable := by
  unfold Encodable
  infer_instance

end Address

namespace RegMem

def operandBytes : RegMem → BitVec 3 → List Byte
  | reg r, field => [modrm 3 field r.low]
  | mem a, field => a.operandBytes field

def indexHigh : RegMem → Bool
  | reg _ => false
  | mem a => a.indexHigh

def baseHigh : RegMem → Bool
  | reg r => r.high
  | mem a => a.base.high

end RegMem

/-- Byte registers four to seven can only be named with the prefix. -/
def needsByteForm (r : RegNum) : Bool := 4 ≤ r.toNat && r.toNat < 8

/-- An instruction with an operand byte: mandatory prefix, extension prefix,
opcode, operands. -/
def withOperands (mandatory : List Byte) (forced wide : Bool) (opcode : List Byte)
    (reg : RegNum) (rm : RegMem) : List Byte :=
  mandatory ++ rex forced wide reg.high rm.indexHigh rm.baseHigh ++ opcode
    ++ rm.operandBytes reg.low

/-- A 64-bit instruction without mandatory prefix. -/
def wideForm (opcode : List Byte) (reg : RegNum) (rm : RegMem) : List Byte :=
  withOperands [] false true opcode reg rm

/-- An instruction that ends its opcode with a register number. -/
def withNumber (wide : Bool) (opcode : BitVec 5) (r : RegNum) : List Byte :=
  rex false wide false false r.high ++ [opcode.setWidth 8 <<< 3 ||| r.low.setWidth 8]

namespace AluOp

/-- Opcode of the form with a register or memory source. -/
def opcode : AluOp → Byte
  | add => 0x03
  | or => 0x0B
  | and => 0x23
  | sub => 0x2B
  | xor => 0x33
  | cmp => 0x3B

def field : AluOp → RegNum
  | add => 0
  | or => 1
  | and => 4
  | sub => 5
  | xor => 6
  | cmp => 7

def all : List AluOp := [add, or, and, sub, xor, cmp]

def ofOpcode? (b : Byte) : Option AluOp := all.find? fun op => op.opcode == b

def ofField? (f : RegNum) : Option AluOp := all.find? fun op => op.field == f

end AluOp

namespace ShiftOp

def field : ShiftOp → RegNum
  | shl => 4
  | shr => 5
  | sar => 7

def ofField? (f : RegNum) : Option ShiftOp := [shl, shr, sar].find? fun op => op.field == f

end ShiftOp

def floatOpcode : FloatOp → Byte
  | .add => 0x58
  | .mul => 0x59
  | .sub => 0x5C
  | .div => 0x5E

def floatOp? (b : Byte) : Option FloatOp :=
  [FloatOp.add, .mul, .sub, .div].find? fun op => floatOpcode op == b

/-- Mandatory prefix of the scalar instructions of a precision. -/
def scalarMark : Precision → Byte
  | .single => 0xF3
  | .double => 0xF2

/-- Mandatory prefix of the unscaled comparisons and bit moves. -/
def packedMark : Precision → List Byte
  | .single => []
  | .double => [0x66]

namespace Instruction

/-- The bytes of an instruction whose memory operand can be encoded. -/
def encode : Instruction → List Byte
  | mov dst src => wideForm [0x8B] dst src
  | store dst src => wideForm [0x89] src dst
  | movUnsigned dst value => withNumber false 0x17 dst ++ leBytes value 4
  | movSigned dst value => wideForm [0xC7] 0 dst ++ leBytes value 4
  | movFull dst value => withNumber true 0x17 dst ++ leBytes value 8
  | extend .sx8 dst src => wideForm [0x0F, 0xBE] dst src
  | extend .sx16 dst src => wideForm [0x0F, 0xBF] dst src
  | extend .sx32 dst src => wideForm [0x63] dst src
  | extend .zx8 dst src =>
    let forced :=
      match src with
      | .reg r => needsByteForm r
      | .mem _ => false
    withOperands [] forced false [0x0F, 0xB6] dst src
  | extend .zx16 dst src => withOperands [] false false [0x0F, 0xB7] dst src
  | extend .zx32 dst src => withOperands [] false false [0x8B] dst src
  | alu op dst src => wideForm [op.opcode] dst src
  | aluImm op dst value =>
    if fitsByte value then wideForm [0x83] op.field (.reg dst) ++ [value.setWidth 8]
    else wideForm [0x81] op.field (.reg dst) ++ leBytes value 4
  | imul dst src => wideForm [0x0F, 0xAF] dst src
  | imulImm dst src value => wideForm [0x69] dst src ++ leBytes value 4
  | div signed src => wideForm [0xF7] (if signed then 7 else 6) src
  | cqo => [0x48, 0x99]
  | shiftCl op dst => wideForm [0xD3] op.field (.reg dst)
  | shiftImm op dst count => wideForm [0xC1] op.field (.reg dst) ++ [count]
  | test a b => wideForm [0x85] b (.reg a)
  | setcc cond dst =>
    withOperands [] (needsByteForm dst) false [0x0F, 0x90 ||| cond.code.setWidth 8] 0 (.reg dst)
  | and8 dst src =>
    withOperands [] (needsByteForm dst || needsByteForm src) false [0x20] src (.reg dst)
  | or8 dst src =>
    withOperands [] (needsByteForm dst || needsByteForm src) false [0x08] src (.reg dst)
  | floatOp op p dst src =>
    withOperands [scalarMark p] false false [0x0F, floatOpcode op] dst src
  | ucomis p a b => withOperands (packedMark p) false false [0x0F, 0x2E] a b
  | movaps dst src => withOperands [] false false [0x0F, 0x28] dst (.reg src)
  | loadFloat p dst src => withOperands [scalarMark p] false false [0x0F, 0x10] dst (.mem src)
  | storeFloat dst src => withOperands [0xF2] false false [0x0F, 0x11] src (.mem dst)
  | xorps dst src => withOperands [] false false [0x0F, 0x57] dst (.reg src)
  | movBits p dst src => withOperands [0x66] false (p == .double) [0x0F, 0x6E] dst (.reg src)
  | intToFloat p dst src => withOperands [scalarMark p] false true [0x0F, 0x2A] dst src
  | floatToInt p dst src => withOperands [scalarMark p] false true [0x0F, 0x2C] dst src
  | convertFloat .double dst src => withOperands [0xF3] false false [0x0F, 0x5A] dst src
  | convertFloat .single dst src => withOperands [0xF2] false false [0x0F, 0x5A] dst src
  | push r => withNumber false 0x0A r
  | pop r => withNumber false 0x0B r
  | ret => [0xC3]
  | callReg target => withOperands [] false false [0xFF] 2 (.reg target)
  | jump displacement => 0xE9 :: leBytes displacement 4
  | jumpIf cond displacement =>
    0x0F :: (0x80 ||| cond.code.setWidth 8) :: leBytes displacement 4
  | nop => [0x90]

def mapAddress (f : Address → Address) : Instruction → Instruction
  | mov dst (.mem a) => mov dst (.mem (f a))
  | extend kind dst (.mem a) => extend kind dst (.mem (f a))
  | alu op dst (.mem a) => alu op dst (.mem (f a))
  | imul dst (.mem a) => imul dst (.mem (f a))
  | imulImm dst (.mem a) value => imulImm dst (.mem (f a)) value
  | floatOp op p dst (.mem a) => floatOp op p dst (.mem (f a))
  | ucomis p dst (.mem a) => ucomis p dst (.mem (f a))
  | loadFloat p dst a => loadFloat p dst (f a)
  | intToFloat p dst (.mem a) => intToFloat p dst (.mem (f a))
  | floatToInt p dst (.mem a) => floatToInt p dst (.mem (f a))
  | convertFloat p dst (.mem a) => convertFloat p dst (.mem (f a))
  | store (.mem a) src => store (.mem (f a)) src
  | movSigned (.mem a) value => movSigned (.mem (f a)) value
  | div signed (.mem a) => div signed (.mem (f a))
  | storeFloat a src => storeFloat (f a) src
  | i => i

/-- The position of a memory operand that cannot be encoded, if there is one. -/
def refused? (i : Instruction) : Option Nat :=
  match i.memory? with
  | some (position, a) => if a.Encodable then none else some position
  | none => none

/-- What is written of an instruction that is refused: everything, with the base
and index fields still clear. -/
def refusedBytes (i : Instruction) : List Byte :=
  (i.mapAddress fun a => { a with base := 0, index := a.index.map fun x => (0, x.2) }).encode

end Instruction

end NativeExpr.X64
