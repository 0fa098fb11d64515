import NativeExpr.X64.General

/-!
# Assembly text

Instructions in NASM syntax and address-annotated listings. Numbers above nine
are hexadecimal with a final `h`, with a zero in front of a leading letter.
-/
namespace NativeExpr.X64

open NativeExpr

namespace Text

def upperHex (n : Nat) : String := (String.ofList (Nat.toDigits 16 n)).map Char.toUpper

/-- Upper-case hexadecimal digits, padded with zeros to `width`. -/
def paddedHex (width n : Nat) : String :=
  let digits := upperHex n
  String.ofList (List.replicate (width - digits.length) '0') ++ digits

/-- Closes a hexadecimal number: a zero before a leading letter, `h` at the end. -/
def closeHex (digits : String) : String :=
  let lead := if digits.toList.head?.any Char.isAlpha then "0" else ""
  lead ++ digits ++ "h"

def number (n : Nat) : String := if n ≤ 9 then toString n else closeHex (upperHex n)

/-- The target of a branch: one digit, or all sixteen. -/
def target (n : Nat) : String := if n ≤ 9 then toString n else closeHex (paddedHex 16 n)

/-- A number that instructions extend by its sign to 64 bits. -/
def extended (v : BitVec 32) : String := number (v.signExtend 64).toNat

def names64 : List String :=
  ["rax", "rcx", "rdx", "rbx", "rsp", "rbp", "rsi", "rdi"]

def names32 : List String :=
  ["eax", "ecx", "edx", "ebx", "esp", "ebp", "esi", "edi"]

def names16 : List String :=
  ["ax", "cx", "dx", "bx", "sp", "bp", "si", "di"]

/-- The second bytes of the first four registers. -/
def secondBytes : List String := ["ah", "ch", "dh", "bh"]

def names8 : List String :=
  ["al", "cl", "dl", "bl", "spl", "bpl", "sil", "dil"]

/-- The name of a general register: from a table, or its number with a suffix. -/
def named (names : List String) (suffix : String) (r : RegNum) : String :=
  names.getD r.toNat s!"r{r.toNat}{suffix}"

def reg64 : RegNum → String := named names64 ""
def reg32 : RegNum → String := named names32 "d"
def reg16 : RegNum → String := named names16 "w"
def reg8 : RegNum → String := named names8 "b"
def xmm (r : RegNum) : String := s!"xmm{r.toNat}"

def disp (d : BitVec 32) : String :=
  if d = 0 then ""
  else if d.toInt < 0 then "-" ++ number d.toInt.natAbs
  else "+" ++ number d.toNat

def address (a : Address) : String :=
  let index :=
    match a.index with
    | none => ""
    | some (r, .one) => "+" ++ reg64 r
    | some (r, scale) => s!"+{reg64 r}*{scale.factor}"
  "[" ++ reg64 a.base ++ index ++ disp a.disp ++ "]"

/-- A register or memory operand; `size` names the width of memory where the
register beside it does not. -/
def operand (name : RegNum → String) (size : String) : RegMem → String
  | .reg r => name r
  | .mem a => size ++ address a

def precision : Precision → String
  | .single => "s"
  | .double => "d"

def aluName : AluOp → String
  | .add => "add"
  | .sub => "sub"
  | .and => "and"
  | .or => "or"
  | .xor => "xor"
  | .cmp => "cmp"

def shiftName : ShiftOp → String
  | .shl => "shl"
  | .shr => "shr"
  | .sar => "sar"

def floatName : FloatOp → String
  | .add => "add"
  | .sub => "sub"
  | .mul => "mul"
  | .div => "div"

def two (mnemonic a b : String) : String := mnemonic ++ " " ++ a ++ "," ++ b

/-- The text of an instruction; `next` is the address of the one after it. -/
def instruction (next : Word) : Instruction → String
  | .mov dst src => two "mov" (reg64 dst) (operand reg64 "" src)
  | .store dst src => two "mov" (operand reg64 "" dst) (reg64 src)
  | .movUnsigned dst value => two "mov" (reg32 dst) (number value.toNat)
  | .movSigned dst value => two "mov" (operand reg64 "qword " dst) (extended value)
  | .movFull dst value => two "mov" (reg64 dst) (number value.toNat)
  | .extend .sx8 dst src => two "movsx" (reg64 dst) (operand reg8 "byte " src)
  | .extend .sx16 dst src => two "movsx" (reg64 dst) (operand reg16 "word " src)
  | .extend .sx32 dst src => two "movsxd" (reg64 dst) (operand reg32 "" src)
  | .extend .zx8 dst src => two "movzx" (reg32 dst) (operand reg8 "byte " src)
  | .extend .zx16 dst src => two "movzx" (reg32 dst) (operand reg16 "word " src)
  | .extend .zx32 dst src => two "mov" (reg32 dst) (operand reg32 "" src)
  | .alu op dst src => two (aluName op) (reg64 dst) (operand reg64 "" src)
  | .aluImm op dst value => two (aluName op) (reg64 dst) (extended value)
  | .imul dst src => two "imul" (reg64 dst) (operand reg64 "" src)
  | .imulImm dst src value =>
    if src = .reg dst then two "imul" (reg64 dst) (extended value)
    else two "imul" (reg64 dst) (operand reg64 "" src ++ "," ++ extended value)
  | .div signed src => (if signed then "idiv " else "div ") ++ operand reg64 "qword " src
  | .cqo => "cqo"
  | .shiftCl op dst => two (shiftName op) (reg64 dst) "cl"
  | .shiftImm op dst count => two (shiftName op) (reg64 dst) (number count.toNat)
  | .test a b => two "test" (reg64 a) (reg64 b)
  | .setcc cond dst => "set" ++ cond.suffix ++ " " ++ reg8 dst
  | .and8 dst src => two "and" (reg8 dst) (reg8 src)
  | .or8 dst src => two "or" (reg8 dst) (reg8 src)
  | .floatOp op p dst src =>
    two (floatName op ++ "s" ++ precision p) (xmm dst) (operand xmm "" src)
  | .ucomis p a b => two ("ucomis" ++ precision p) (xmm a) (operand xmm "" b)
  | .movaps dst src => two "movaps" (xmm dst) (xmm src)
  | .loadFloat p dst src => two ("movs" ++ precision p) (xmm dst) (address src)
  | .storeFloat dst src => two "movsd" (address dst) (xmm src)
  | .xorps dst src => two "xorps" (xmm dst) (xmm src)
  | .movBits .double dst src => two "movq" (xmm dst) (reg64 src)
  | .movBits .single dst src => two "movd" (xmm dst) (reg32 src)
  | .intToFloat p dst src => two ("cvtsi2s" ++ precision p) (xmm dst) (operand reg64 "qword " src)
  | .floatToInt p dst src => two ("cvtts" ++ precision p ++ "2si") (reg64 dst) (operand xmm "" src)
  | .convertFloat .double dst src => two "cvtss2sd" (xmm dst) (operand xmm "" src)
  | .convertFloat .single dst src => two "cvtsd2ss" (xmm dst) (operand xmm "" src)
  | .push r => "push " ++ reg64 r
  | .pop r => "pop " ++ reg64 r
  | .ret => "ret"
  | .callReg r => "call " ++ reg64 r
  | .jump d => "jmp " ++ target (next + d.signExtend 64).toNat
  | .jumpIf cond d => "j" ++ cond.suffix ++ " near " ++ target (next + d.signExtend 64).toNat
  | .nop => "nop"

def register : Width → RegNum → String
  | .byte => reg8
  | .word => reg16
  | .dword => reg32
  | .qword => reg64

def widthName : Width → String
  | .byte => "byte"
  | .word => "word"
  | .dword => "dword"
  | .qword => "qword"

/-- A place in memory; `next` is the address of the next instruction. -/
def place (next : Word) : Place → String
  | .based a => address a
  | .ahead d => "[rel " ++ number (next + d.signExtend 64).toNat ++ "]"
  | .absolute none d => "[" ++ extended d ++ "]"
  | .absolute (some (r, scale)) d => s!"[{reg64 r}*{scale.factor}{disp d}]"

def shown (next : Word) : Shown → String
  | .reg w r => register w r
  | .secondByte r => secondBytes.getD r.toNat ""
  | .mem none p => place next p
  | .mem (some w) p => widthName w ++ " " ++ place next p
  | .number n => number n
  | .target word d => word ++ target (next + d).toNat

/-- The text of a general instruction; `next` is the address of the one after it. -/
def general (next : Word) (i : General) : String :=
  match i.operands with
  | [] => i.mnemonic
  | operands => i.mnemonic ++ " " ++ String.intercalate "," (operands.map (shown next))

/-- Reads the text of an instruction, which depends on the address of the next one. -/
def read (bytes : List Byte) : Option ((Word → String) × List Byte) :=
  match decode bytes with
  | some (i, rest) => some (fun next => instruction next i, rest)
  | none => (General.read bytes).map fun (i, rest) => (fun next => general next i, rest)

/-- The pieces of a code image: text, offset and length of each. -/
def pieces (code : Array Byte) (address : Word) : List (String × Nat × Nat) :=
  (sweep read code 0 code.size).map fun (text, offset, length) =>
    match text with
    | some t => (t (address + BitVec.ofNat 64 (offset + length)), offset, length)
    | none => ("(bad)", offset, length)

end Text

/-- One line for every instruction of a code image at address 0. -/
def disassemble (code : Array Byte) : List String :=
  (Text.pieces code 0).map fun (text, _, _) => text

/-- A line with address, bytes and text for every instruction of a code image. -/
def listingLines (code : Array Byte) (address : Word) : List String :=
  (Text.pieces code address).map fun (text, offset, length) =>
    let start := address + BitVec.ofNat 64 offset
    let bytes := (code.extract offset (offset + length)).toList.map
      fun b => Text.paddedHex 2 b.toNat
    let raw := String.join bytes
    let padding := String.ofList (List.replicate (24 - raw.length) ' ')
    Text.paddedHex 16 start.toNat ++ " " ++ raw ++ padding ++ " " ++ text

end NativeExpr.X64
