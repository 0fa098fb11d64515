import NativeExpr.X64.Decode

/-!
# General instructions

Code that is appended as it stands may hold integer instructions that generated
code does without: other widths, operands in the other order, addresses without
displacement or relative to the next instruction. They are read for listings
only, as a mnemonic with its operands.
-/
namespace NativeExpr.X64

open NativeExpr

/-- The widths of integer operands. -/
inductive Width
  | byte
  | word
  | dword
  | qword
  deriving DecidableEq, Repr

namespace Width

def bits : Width → Nat
  | byte => 8
  | word => 16
  | dword => 32
  | qword => 64

/-- Bytes of a constant of this width; the longest are extended by their sign. -/
def constantBytes : Width → Nat
  | byte => 1
  | word => 2
  | dword | qword => 4

end Width

/-- The place of a memory operand. -/
inductive Place
  | based (a : Address)
  /-- Relative to the end of the instruction. -/
  | ahead (disp : BitVec 32)
  | absolute (index : Option (RegNum × Scale)) (disp : BitVec 32)
  deriving DecidableEq, Repr

/-- An operand as a listing shows it. -/
inductive Shown
  | reg (width : Width) (r : RegNum)
  /-- The second byte of one of the first four registers. -/
  | secondByte (r : BitVec 2)
  /-- Memory, with its width where no register beside it tells. -/
  | mem (width : Option Width) (p : Place)
  | number (n : Nat)
  /-- The target of a branch, from its displacement; `near` is the word in front. -/
  | target (word : String) (displacement : Word)
  deriving DecidableEq, Repr

/-- A mnemonic with its operands. -/
structure General where
  mnemonic : String
  operands : List Shown
  deriving DecidableEq, Repr

namespace General

def arithNames : List String := ["add", "or", "adc", "sbb", "and", "sub", "xor", "cmp"]

def shiftNames : List String := ["rol", "ror", "rcl", "rcr", "shl", "shr", "sal", "sar"]

def unaryNames : List String := ["not", "neg", "mul", "imul", "div", "idiv"]

/-- The suffixes of all sixteen conditions, in the order of their codes. -/
def conditionNames : List String :=
  ["o", "no", "b", "ae", "e", "ne", "be", "a", "s", "ns", "p", "np", "l", "ge", "le", "g"]

/-- Opcodes that 64-bit code leaves undefined. -/
def undefinedOpcodes : List Nat :=
  [0x06, 0x07, 0x0E, 0x16, 0x17, 0x1E, 0x1F, 0x27, 0x2F, 0x37, 0x3F, 0x60, 0x61, 0x82, 0x9A,
    0xCE, 0xD4, 0xD5, 0xD6, 0xEA]

/-- Instructions of a single byte. -/
def loneNames : List (Nat × String) :=
  [(0x9E, "sahf"), (0x9F, "lahf"), (0xC3, "ret"), (0xC9, "leave"), (0xCC, "int3"),
    (0xF1, "int1"), (0xF4, "hlt"), (0xF5, "cmc"), (0xF8, "clc"), (0xF9, "stc"), (0xFA, "cli"),
    (0xFB, "sti"), (0xFC, "cld"), (0xFD, "std")]

def loneName? (opcode : Nat) : Option String :=
  if undefinedOpcodes.contains opcode then some "(bad)" else loneNames.lookup opcode

/-- What stands in front of an opcode. -/
structure Front where
  /-- Operands have 16 bits unless they have 64. -/
  short : Bool
  rex : Rex
  deriving DecidableEq, Repr

/-- The operands an operand byte names. -/
structure Fields where
  reg : RegNum
  /-- A register, or a place in memory. -/
  rm : RegNum ⊕ Place
  deriving DecidableEq, Repr

namespace Front

/-- The width of operands that are not bytes. -/
def full (f : Front) : Width :=
  if f.rex.wide then .qword else if f.short then .word else .dword

def width (f : Front) (opcode : Byte) : Width := if opcode.getLsbD 0 then f.full else .byte

/-- The width of what goes over the stack. -/
def stacked (f : Front) : Width := if f.short ∧ !f.rex.wide then .word else .qword

def register (f : Front) (w : Width) (r : RegNum) : Shown :=
  if w = .byte ∧ !f.rex.present ∧ needsByteForm r then .secondByte (r.setWidth 2) else .reg w r

/-- The register or memory operand. Memory shows its width if `sized`. -/
def operand (f : Front) (w : Width) (sized : Bool) : RegNum ⊕ Place → Shown
  | .inl r => f.register w r
  | .inr p => .mem (if sized then some w else none) p

end Front

/-- A place without a base. The lower bits of the operand byte tell whether it
has an index or is relative to the end of the instruction. -/
def takeBaseless (rex : Rex) (low : BitVec 3) (bytes : List Byte) : Option (Place × List Byte) :=
  match low.toNat, bytes with
  | 5, _ => (takeNumber 32 4 bytes).map fun (disp, rest) => (.ahead disp, rest)
  | 4, s :: rest =>
    let r := regNum rex.index (s.extractLsb' 3 3)
    let index :=
      if r = RegNum.stackPointer then none else some (r, Scale.ofLog (s.extractLsb' 6 2))
    if s.extractLsb' 0 3 = 5#3 then
      (takeNumber 32 4 rest).map fun (disp, rest) => (.absolute index disp, rest)
    else none
  | _, _ => none

def takeFields (f : Front) (bytes : List Byte) : Option (Fields × List Byte) :=
  match takeOperands f.rex bytes, bytes with
  | some (reg, .reg r, rest), _ => some (⟨reg, .inl r⟩, rest)
  | some (reg, .mem a, rest), _ => some (⟨reg, .inr (.based a)⟩, rest)
  | none, b :: rest =>
    if b.extractLsb' 6 2 = 0#2 then
      (takeBaseless f.rex (b.extractLsb' 0 3) rest).map fun (p, rest) =>
        (⟨regNum f.rex.reg (b.extractLsb' 3 3), .inr p⟩, rest)
    else none
  | none, [] => none

/-- Takes a constant of `size` bytes, extended by its sign to a width. -/
def takeExtended (w : Width) (size : Nat) (bytes : List Byte) : Option (Shown × List Byte) :=
  (takeNumber (8 * size) size bytes).map fun (v, rest) =>
    (.number (v.signExtend w.bits).toNat, rest)

def takeConstant (w : Width) : List Byte → Option (Shown × List Byte) :=
  takeExtended w w.constantBytes

def takeTarget (word : String) (size : Nat) (bytes : List Byte) : Option (Shown × List Byte) :=
  (takeNumber (8 * size) size bytes).map fun (v, rest) => (.target word (v.signExtend 64), rest)

abbrev Reading := Option (General × List Byte)

def one (mnemonic : String) (take : Option (Shown × List Byte)) : Reading :=
  take.map fun (x, rest) => (⟨mnemonic, [x]⟩, rest)

def withConstant (mnemonic : String) (x : Shown) (take : Option (Shown × List Byte)) : Reading :=
  take.map fun (n, rest) => (⟨mnemonic, [x, n]⟩, rest)

/-- The extended register field as a number, for opcodes it belongs to. -/
def Fields.digit (x : Fields) : Nat := x.reg.low.toNat

/-- Both operands of one width, the register or memory operand first. -/
def outward (f : Front) (w : Width) (mnemonic : String) (x : Fields) : General :=
  ⟨mnemonic, [f.operand w false x.rm, f.register w x.reg]⟩

/-- Both operands of one width, the register first. -/
def inward (f : Front) (w : Width) (mnemonic : String) (x : Fields) : General :=
  ⟨mnemonic, [f.register w x.reg, f.operand w false x.rm]⟩

def widening (f : Front) (mnemonic : String) (source : Width) (x : Fields) : General :=
  ⟨mnemonic, [f.register f.full x.reg, f.operand source true x.rm]⟩

/-- A product with a constant; equal registers are named once. -/
def product (f : Front) (size : Nat) (x : Fields) (bytes : List Byte) : Reading :=
  (takeExtended f.full size bytes).map fun (n, rest) =>
    let sources := if x.rm = .inl x.reg then [n] else [f.operand f.full false x.rm, n]
    (⟨"imul", f.register f.full x.reg :: sources⟩, rest)

/-- The eight operations of arithmetic on opcodes below 64. -/
def readArith (f : Front) (opcode : Byte) (bytes : List Byte) : Reading := do
  let name ← arithNames[(opcode.extractLsb' 3 3).toNat]?
  let w := f.width opcode
  if opcode.getLsbD 2 then withConstant name (f.register w 0) (takeConstant w bytes)
  else do
    let (x, rest) ← takeFields f bytes
    return (if opcode.getLsbD 1 then inward f w name x else outward f w name x, rest)

/-- The operations that the register field of opcodes F6 and F7 tells. -/
def readUnary (f : Front) (w : Width) (x : Fields) (rest : List Byte) : Reading :=
  let operand := f.operand w true x.rm
  if x.digit < 2 then withConstant "test" operand (takeConstant w rest)
  else unaryNames[x.digit - 2]?.map fun name => (⟨name, [operand]⟩, rest)

/-- The operations that the register field of opcodes FE and FF tells. -/
def readStep (f : Front) (w : Width) (x : Fields) (rest : List Byte) : Reading :=
  match x.digit, w == .byte with
  | 0, _ => some (⟨"inc", [f.operand w true x.rm]⟩, rest)
  | 1, _ => some (⟨"dec", [f.operand w true x.rm]⟩, rest)
  | 2, false => some (⟨"call", [f.operand .qword true x.rm]⟩, rest)
  | 4, false => some (⟨"jmp", [f.operand .qword true x.rm]⟩, rest)
  | 6, false => some (⟨"push", [f.operand f.stacked true x.rm]⟩, rest)
  | _, _ => none

/-- Instructions of one opcode byte with an operand byte. -/
def readFields (f : Front) (opcode : Byte) (x : Fields) (rest : List Byte) : Reading :=
  let w := f.width opcode
  let operand := f.operand w true x.rm
  match opcode.toNat with
  | 0x63 =>
    some (⟨"movsxd", [f.register f.full x.reg, f.operand .dword false x.rm]⟩, rest)
  | 0x69 => product f f.full.constantBytes x rest
  | 0x6B => product f 1 x rest
  | 0x80 | 0x81 => do withConstant (← arithNames[x.digit]?) operand (takeConstant w rest)
  | 0x83 => do withConstant (← arithNames[x.digit]?) operand (takeExtended w 1 rest)
  | 0x84 | 0x85 => some (outward f w "test" x, rest)
  | 0x86 | 0x87 => some (outward f w "xchg" x, rest)
  | 0x88 | 0x89 => some (outward f w "mov" x, rest)
  | 0x8A | 0x8B => some (inward f w "mov" x, rest)
  | 0x8D => if x.rm.isRight then some (inward f f.full "lea" x, rest) else none
  | 0xC0 | 0xC1 => do withConstant (← shiftNames[x.digit]?) operand (takeConstant .byte rest)
  | 0xC6 | 0xC7 =>
    if x.digit = 0 then withConstant "mov" operand (takeConstant w rest) else none
  | 0xD0 | 0xD1 => do return (⟨← shiftNames[x.digit]?, [operand, .number 1]⟩, rest)
  | 0xD2 | 0xD3 => do return (⟨← shiftNames[x.digit]?, [operand, .reg .byte 1]⟩, rest)
  | 0xF6 | 0xF7 => readUnary f w x rest
  | 0xFE | 0xFF => readStep f w x rest
  | _ => none

/-- Instructions of two opcode bytes, from the second on. -/
def readLong (f : Front) (opcode : Byte) (bytes : List Byte) : Reading := do
  let cond ← conditionNames[(opcode.extractLsb' 0 4).toNat]?
  match opcode.toNat, (opcode.extractLsb' 4 4).toNat with
  | 0x0B, _ => return (⟨"ud2", []⟩, bytes)
  | _, 0x8 => one ("j" ++ cond) (takeTarget "near " 4 bytes)
  | n, group => do
    let (x, rest) ← takeFields f bytes
    match n, group, x.rm with
    | 0x1F, _, _ =>
      if x.digit = 0 then return (⟨"nop", [f.operand f.full true x.rm]⟩, rest) else none
    | _, 0x4, _ => return (inward f f.full ("cmov" ++ cond) x, rest)
    | _, 0x9, .inl r => return (⟨"set" ++ cond, [f.register .byte r]⟩, rest)
    | 0xAF, _, _ => return (inward f f.full "imul" x, rest)
    | 0xB6, _, _ => return (widening f "movzx" .byte x, rest)
    | 0xB7, _, _ => return (widening f "movzx" .word x, rest)
    | 0xBE, _, _ => return (widening f "movsx" .byte x, rest)
    | 0xBF, _, _ => return (widening f "movsx" .word x, rest)
    | _, _, _ => none

def byWidth (f : Front) (word dword qword : String) : General :=
  match f.full with
  | .byte | .word => ⟨word, []⟩
  | .dword => ⟨dword, []⟩
  | .qword => ⟨qword, []⟩

/-- Instructions that end their opcode with a register number or a condition, and
those with an operand byte. -/
def readNumbered (f : Front) (opcode : Byte) (bytes : List Byte) : Reading :=
  let number := regNum f.rex.base (opcode.extractLsb' 0 3)
  match (opcode.extractLsb' 3 5).toNat with
  | 0x0A => some (⟨"push", [.reg f.stacked number]⟩, bytes)
  | 0x0B => some (⟨"pop", [.reg f.stacked number]⟩, bytes)
  | 0x0E | 0x0F => do
    one ("j" ++ (← conditionNames[(opcode.extractLsb' 0 4).toNat]?)) (takeTarget "short " 1 bytes)
  | 0x12 =>
    if number = 0 then some (⟨"nop", []⟩, bytes)
    else some (⟨"xchg", [.reg f.full number, .reg f.full 0]⟩, bytes)
  | 0x16 => withConstant "mov" (f.register .byte number) (takeConstant .byte bytes)
  | 0x17 =>
    let size := if f.rex.wide then 8 else f.full.constantBytes
    withConstant "mov" (.reg f.full number) (takeExtended f.full size bytes)
  | _ => do
    let (x, rest) ← takeFields f bytes
    readFields f opcode x rest

def readPlain (f : Front) : List Byte → Reading
  | [] => none
  | b :: rest =>
    match b.toNat, rest with
    | 0x0F, c :: rest => readLong f c rest
    | 0x68, _ => one "push" (takeConstant f.stacked rest)
    | 0x6A, _ => one "push" (takeExtended f.stacked 1 rest)
    | 0x98, _ => some (byWidth f "cbw" "cwde" "cdqe", rest)
    | 0x99, _ => some (byWidth f "cwd" "cdq" "cqo", rest)
    | 0xA8, _ | 0xA9, _ =>
      withConstant "test" (f.register (f.width b) 0) (takeConstant (f.width b) rest)
    | 0xC2, _ => one "ret" (takeConstant .word rest)
    | 0xE8, _ => one "call" (takeTarget "" 4 rest)
    | 0xE9, _ => one "jmp" (takeTarget "" 4 rest)
    | 0xEB, _ => one "jmp" (takeTarget "short " 1 rest)
    | n, _ =>
      match loneName? n with
      | some name => some (⟨name, []⟩, rest)
      | none => if n < 0x40 then readArith f b rest else readNumbered f b rest

/-- The first instruction of a byte string and what follows it. -/
def read : List Byte → Reading
  | [] => none
  | b :: rest =>
    let short := b = 0x66
    let (rex, rest) := Rex.take (if short then rest else b :: rest)
    readPlain ⟨short, rex⟩ rest

end General

end NativeExpr.X64
