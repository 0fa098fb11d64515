import NativeExpr.X64.Encode

/-!
# Reading machine code

Decoding takes one instruction from the front of a byte string: prefixes, an
opcode, and the operands the opcode asks for.
-/
namespace NativeExpr.X64

open NativeExpr

/-- The bits of the width and extension prefix. -/
structure Rex where
  /-- Whether there is a prefix: byte registers four to seven can only be named with one. -/
  present : Bool
  wide : Bool
  reg : Bool
  index : Bool
  base : Bool
  deriving DecidableEq, Repr

namespace Rex

def none : Rex := ⟨false, false, false, false, false⟩

def take : List Byte → Rex × List Byte
  | [] => (none, [])
  | b :: rest =>
    if b.extractLsb' 4 4 = 4#4 then
      (⟨true, b.getLsbD 3, b.getLsbD 2, b.getLsbD 1, b.getLsbD 0⟩, rest)
    else (none, b :: rest)

/-- Whether the prefix lets an instruction name the low byte of a register. -/
def namesByte (rex : Rex) (r : RegNum) : Bool := rex.present || !needsByteForm r

end Rex

def regNum (high : Bool) (low : BitVec 3) : RegNum :=
  (BitVec.ofBool high).setWidth 4 <<< 3 ||| low.setWidth 4

def takeNumber (width n : Nat) (bytes : List Byte) : Option (BitVec width × List Byte) :=
  if n ≤ bytes.length then some (BitVec.ofNat width (leNat (bytes.take n)), bytes.drop n)
  else none

/-- Takes a displacement: none in mode 0, one byte in mode 1, four bytes in mode 2.
In mode 0 the base with the lower bits 5 stands for an address without base. -/
def takeDisp (mode : Nat) (base : BitVec 3) (bytes : List Byte) :
    Option (BitVec 32 × List Byte) :=
  match mode with
  | 0 => if base = 5 then none else some (0, bytes)
  | 1 => (takeNumber 8 1 bytes).map fun (v, rest) => (v.signExtend 32, rest)
  | 2 => takeNumber 32 4 bytes
  | _ => none

/-- Takes the operand byte with what belongs to it: the register and the
register or memory operand, which has a base. -/
def takeOperands (rex : Rex) : List Byte → Option (RegNum × RegMem × List Byte)
  | [] => none
  | b :: rest =>
    let reg := regNum rex.reg (b.extractLsb' 3 3)
    let low := b.extractLsb' 0 3
    let mode := (b.extractLsb' 6 2).toNat
    if mode = 3 then some (reg, .reg (regNum rex.base low), rest)
    else if low = 4 then
      match rest with
      | [] => none
      | s :: rest => do
        let index := regNum rex.index (s.extractLsb' 3 3)
        let scale := Scale.ofLog (s.extractLsb' 6 2)
        let base := s.extractLsb' 0 3
        let (disp, rest) ← takeDisp mode base rest
        let index := if index = RegNum.stackPointer then none else some (index, scale)
        return (reg, .mem ⟨regNum rex.base base, index, disp⟩, rest)
    else do
      let (disp, rest) ← takeDisp mode low rest
      return (reg, .mem ⟨regNum rex.base low, none, disp⟩, rest)

abbrev Decoded := Option (Instruction × List Byte)

/-- Instructions of one opcode byte with an operand byte and no mandatory prefix. -/
def decodeShort (rex : Rex) (opcode : Byte) (bytes : List Byte) : Decoded := do
  let (reg, rm, rest) ← takeOperands rex bytes
  match opcode.toNat, rex.wide, rm with
  | 0x8B, true, _ => return (.mov reg rm, rest)
  | 0x8B, false, _ => return (.extend .zx32 reg rm, rest)
  | 0x89, true, _ => return (.store rm reg, rest)
  | 0x63, true, _ => return (.extend .sx32 reg rm, rest)
  | 0x85, true, .reg a => return (.test a reg, rest)
  | 0x20, false, .reg dst => do
    guard (rex.namesByte dst && rex.namesByte reg)
    return (.and8 dst reg, rest)
  | 0x08, false, .reg dst => do
    guard (rex.namesByte dst && rex.namesByte reg)
    return (.or8 dst reg, rest)
  | 0xC7, true, _ => do
    guard (reg = 0)
    let (value, rest) ← takeNumber 32 4 rest
    return (.movSigned rm value, rest)
  | 0x83, true, .reg dst => do
    let op ← AluOp.ofField? reg
    let (value, rest) ← takeNumber 8 1 rest
    return (.aluImm op dst (value.signExtend 32), rest)
  | 0x81, true, .reg dst => do
    let op ← AluOp.ofField? reg
    let (value, rest) ← takeNumber 32 4 rest
    return (.aluImm op dst value, rest)
  | 0x69, true, _ => do
    let (value, rest) ← takeNumber 32 4 rest
    return (.imulImm reg rm value, rest)
  | 0xF7, true, _ =>
    if reg = 6 then return (.div false rm, rest)
    else if reg = 7 then return (.div true rm, rest)
    else none
  | 0xD3, true, .reg dst => do
    let op ← ShiftOp.ofField? reg
    return (.shiftCl op dst, rest)
  | 0xC1, true, .reg dst => do
    let op ← ShiftOp.ofField? reg
    let (count, rest) ← takeNumber 8 1 rest
    return (.shiftImm op dst count, rest)
  | 0xFF, false, .reg target => do
    guard (reg = 2)
    return (.callReg target, rest)
  | _, true, _ => do
    let op ← AluOp.ofOpcode? opcode
    return (.alu op reg rm, rest)
  | _, _, _ => none

/-- Instructions of two opcode bytes with an operand byte and no mandatory prefix. -/
def decodeLong (rex : Rex) (opcode : Byte) (bytes : List Byte) : Decoded := do
  let (reg, rm, rest) ← takeOperands rex bytes
  match opcode.toNat, rex.wide, rm with
  | 0xBE, true, _ => return (.extend .sx8 reg rm, rest)
  | 0xBF, true, _ => return (.extend .sx16 reg rm, rest)
  | 0xB6, false, .reg src => do
    guard (rex.namesByte src)
    return (.extend .zx8 reg rm, rest)
  | 0xB6, false, .mem _ => return (.extend .zx8 reg rm, rest)
  | 0xB7, false, _ => return (.extend .zx16 reg rm, rest)
  | 0xAF, true, _ => return (.imul reg rm, rest)
  | 0x2E, false, _ => return (.ucomis .single reg rm, rest)
  | 0x28, false, .reg src => return (.movaps reg src, rest)
  | 0x57, false, .reg src => return (.xorps reg src, rest)
  | _, false, .reg dst => do
    guard (opcode.extractLsb' 4 4 = 9#4 ∧ reg = 0 ∧ rex.namesByte dst)
    let cond ← Condition.ofCode? (opcode.extractLsb' 0 4)
    return (.setcc cond dst, rest)
  | _, _, _ => none

/-- Scalar float instructions of a precision. -/
def decodeScalar (p : Precision) (rex : Rex) (opcode : Byte) (bytes : List Byte) : Decoded := do
  let (reg, rm, rest) ← takeOperands rex bytes
  match opcode.toNat, rex.wide, rm with
  | 0x10, false, .mem a => return (.loadFloat p reg a, rest)
  | 0x11, false, .mem a => do
    guard (p = .double)
    return (.storeFloat a reg, rest)
  | 0x2A, true, _ => return (.intToFloat p reg rm, rest)
  | 0x2C, true, _ => return (.floatToInt p reg rm, rest)
  | 0x5A, false, _ =>
    match p with
    | .single => return (.convertFloat .double reg rm, rest)
    | .double => return (.convertFloat .single reg rm, rest)
  | _, false, _ => do
    let op ← floatOp? opcode
    return (.floatOp op p reg rm, rest)
  | _, _, _ => none

/-- Instructions with the prefix 66. -/
def decodePacked (rex : Rex) (opcode : Byte) (bytes : List Byte) : Decoded := do
  let (reg, rm, rest) ← takeOperands rex bytes
  match opcode.toNat, rex.wide, rm with
  | 0x2E, false, _ => return (.ucomis .double reg rm, rest)
  | 0x6E, wide, .reg src => return (.movBits (if wide then .double else .single) reg src, rest)
  | _, _, _ => none

/-- Instructions without mandatory prefix, from the opcode on. -/
def decodePlain (rex : Rex) : List Byte → Decoded
  | [] => none
  | b :: rest =>
    let number := regNum rex.base (b.extractLsb' 0 3)
    match b.toNat, rest with
    | 0xC3, _ => if rex = .none then some (.ret, rest) else none
    | 0x90, _ => if rex = .none then some (.nop, rest) else none
    | 0x99, _ => if rex.wide then some (.cqo, rest) else none
    | 0xE9, _ => do
      let (displacement, rest) ← takeNumber 32 4 rest
      return (.jump displacement, rest)
    | 0x0F, c :: rest =>
      if c.extractLsb' 4 4 = 8#4 then do
        let cond ← Condition.ofCode? (c.extractLsb' 0 4)
        let (displacement, rest) ← takeNumber 32 4 rest
        return (.jumpIf cond displacement, rest)
      else decodeLong rex c rest
    | _, _ =>
      match (b.extractLsb' 3 5).toNat with
      | 0x0A => if rex.wide then none else some (.push number, rest)
      | 0x0B => if rex.wide then none else some (.pop number, rest)
      | 0x17 =>
        if rex.wide then do
          let (value, rest) ← takeNumber 64 8 rest
          return (.movFull number value, rest)
        else do
          let (value, rest) ← takeNumber 32 4 rest
          return (.movUnsigned number value, rest)
      | _ => decodeShort rex b rest

def decodeMarked (table : Rex → Byte → List Byte → Decoded) (bytes : List Byte) : Decoded :=
  match Rex.take bytes with
  | (rex, escape :: opcode :: rest) => if escape = 0x0F then table rex opcode rest else none
  | _ => none

/-- The first instruction of a byte string and what follows it. -/
def decode : List Byte → Decoded
  | [] => none
  | b :: rest =>
    match b.toNat with
    | 0xF2 => decodeMarked (decodeScalar .double) rest
    | 0xF3 => decodeMarked (decodeScalar .single) rest
    | 0x66 => decodeMarked decodePacked rest
    | _ =>
      let (rex, rest) := Rex.take (b :: rest)
      decodePlain rex rest

/-- The longest encoding of an instruction, in bytes. -/
def maxInstructionLength : Nat := 15

/-- What a reader takes from a code image at an offset, and how many bytes. -/
def readAt {α : Type} (read : List Byte → Option (α × List Byte)) (code : Array Byte)
    (offset : Nat) : Option (α × Nat) :=
  let window := (code.extract offset (offset + maxInstructionLength)).toList
  (read window).map fun (i, rest) => (i, window.length - rest.length)

/-- The instruction at an offset of a code image and its length. -/
def decodeAt : Array Byte → Nat → Option (Instruction × Nat) := readAt decode

/-- Splits `size` bytes of code into what a reader takes, with offsets and
lengths. Bytes that it does not take end the list as one piece. -/
def sweep {α : Type} (read : List Byte → Option (α × List Byte)) (code : Array Byte)
    (offset : Nat) : Nat → List (Option α × Nat × Nat)
  | 0 => []
  | size + 1 =>
    if code.size ≤ offset then []
    else
      match readAt read code offset with
      | some (i, length) =>
        (some i, offset, max length 1) :: sweep read code (offset + max length 1) size
      | none => [(none, offset, code.size - offset)]

/-- The instructions of a code image with their offsets and lengths. -/
def instructions (code : Array Byte) : List (Option Instruction × Nat × Nat) :=
  sweep decode code 0 code.size

end NativeExpr.X64
