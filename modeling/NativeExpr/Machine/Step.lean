import NativeExpr.Machine.State
import NativeExpr.X64.Decode

/-!
# Execution of one instruction

The effect of every instruction on a machine state. Division fails when the
divisor is zero or the quotient has more than 64 bits. Flags that the processor
leaves undefined, or that no generated code reads, keep their values.
-/
namespace NativeExpr.Machine

open NativeExpr X64

/-- `rdx:rax` divided by an unsigned divisor: quotient and remainder. -/
def divideUnsigned (high low divisor : Word) : Option (Word × Word) :=
  let n := (high ++ low).toNat
  if divisor = 0 ∨ !fitsUnsigned 64 (n / divisor.toNat) then none
  else some (BitVec.ofNat 64 (n / divisor.toNat), BitVec.ofNat 64 (n % divisor.toNat))

/-- `rdx:rax` divided by a signed divisor, the quotient cut toward zero. -/
def divideSigned (high low divisor : Word) : Option (Word × Word) :=
  let n := (high ++ low).toInt
  let q := n.tdiv divisor.toInt
  if divisor = 0 ∨ !fitsSigned 64 q then none
  else some (BitVec.ofInt 64 q, BitVec.ofInt 64 (n.tmod divisor.toInt))

def widen : Extension → Word → Word
  | .sx8, x => (x.setWidth 8).signExtend 64
  | .sx16, x => (x.setWidth 16).signExtend 64
  | .sx32, x => (x.setWidth 32).signExtend 64
  | .zx8, x => (x.setWidth 8).setWidth 64
  | .zx16, x => (x.setWidth 16).setWidth 64
  | .zx32, x => (x.setWidth 32).setWidth 64

def extensionSize : Extension → Nat
  | .sx8 | .zx8 => 1
  | .sx16 | .zx16 => 2
  | .sx32 | .zx32 => 4

def execAlu (s : State) (op : AluOp) (dst : RegNum) (y : Word) : State :=
  let x := s.reg dst
  match op with
  | .add => (s.setReg dst (x + y)).setFlags (.ofAdd x y)
  | .sub => (s.setReg dst (x - y)).setFlags (.ofSub x y)
  | .and => (s.setReg dst (x &&& y)).setFlags (.ofLogic (x &&& y))
  | .or => (s.setReg dst (x ||| y)).setFlags (.ofLogic (x ||| y))
  | .xor => (s.setReg dst (x ^^^ y)).setFlags (.ofLogic (x ^^^ y))
  | .cmp => s.setFlags (.ofSub x y)

/-- Shifts count modulo 64. -/
def shiftWord (op : ShiftOp) (x : Word) (count : Nat) : Word :=
  match op with
  | .shl => x <<< (count % 64)
  | .shr => x >>> (count % 64)
  | .sar => x.sshiftRight (count % 64)

def execByte (s : State) (f : Byte → Byte → Byte) (dst src : RegNum) : State :=
  let b := f ((s.reg dst).setWidth 8) ((s.reg src).setWidth 8)
  let flags : Flags := { Flags.ofLogic (b.setWidth 64) with sign := b.msb }
  (s.setByte dst b).setFlags flags

/-- The state after an instruction that ends at `next`, or nothing on a divide error. -/
def exec (s : State) (next : Word) : Instruction → Option State
  | .mov dst src => some ((s.setReg dst (s.read 8 src)).setPc next)
  | .store (.reg dst) src => some ((s.setReg dst (s.reg src)).setPc next)
  | .store (.mem dst) src => some ((s.write (s.address dst) (s.reg src)).setPc next)
  | .movUnsigned dst value => some ((s.setReg dst (value.setWidth 64)).setPc next)
  | .movSigned (.reg dst) value => some ((s.setReg dst (value.signExtend 64)).setPc next)
  | .movSigned (.mem dst) value =>
    some ((s.write (s.address dst) (value.signExtend 64)).setPc next)
  | .movFull dst value => some ((s.setReg dst value).setPc next)
  | .extend kind dst src =>
    some ((s.setReg dst (widen kind (s.read (extensionSize kind) src))).setPc next)
  | .alu op dst src => some ((execAlu s op dst (s.read 8 src)).setPc next)
  | .aluImm op dst value => some ((execAlu s op dst (value.signExtend 64)).setPc next)
  | .imul dst src => some ((s.setReg dst (s.reg dst * s.read 8 src)).setPc next)
  | .imulImm dst src value =>
    some ((s.setReg dst (s.read 8 src * value.signExtend 64)).setPc next)
  | .div signed src => do
    let divisor := s.read 8 src
    let (q, r) ←
      if signed then divideSigned (s.reg 2) (s.reg 0) divisor
      else divideUnsigned (s.reg 2) (s.reg 0) divisor
    return ((s.setReg 0 q).setReg 2 r).setPc next
  | .cqo => some ((s.setReg 2 ((s.reg 0).sshiftRight 63)).setPc next)
  | .shiftCl op dst =>
    some ((s.setReg dst (shiftWord op (s.reg dst) ((s.reg 1).setWidth 8).toNat)).setPc next)
  | .shiftImm op dst count =>
    some ((s.setReg dst (shiftWord op (s.reg dst) count.toNat)).setPc next)
  | .test a b => some ((s.setFlags (.ofLogic (s.reg a &&& s.reg b))).setPc next)
  | .setcc cond dst => some ((s.setByte dst (if s.flags.holds cond then 1 else 0)).setPc next)
  | .and8 dst src => some ((execByte s (· &&& ·) dst src).setPc next)
  | .or8 dst src => some ((execByte s (· ||| ·) dst src).setPc next)
  | .floatOp op p dst src =>
    let x := p.execute op (s.readFloat p (.reg dst)) (s.readFloat p src)
    some ((s.setScalar p dst x).setPc next)
  | .ucomis p a b =>
    some ((s.setFlags (.ofOrder (p.compare (s.readFloat p (.reg a)) (s.readFloat p b)))).setPc next)
  | .movaps dst src => some ((s.setXmm dst (s.xmm src)).setPc next)
  | .loadFloat p dst src => some ((s.setXmm dst (s.readFloat p (.mem src))).setPc next)
  | .storeFloat dst src => some ((s.write (s.address dst) (s.xmm src)).setPc next)
  | .xorps dst src => some ((s.setXmm dst (s.xmm dst ^^^ s.xmm src)).setPc next)
  | .movBits p dst src =>
    some ((s.setXmm dst ((s.reg src).setWidth p.width |>.setWidth 64)).setPc next)
  | .intToFloat p dst src => some ((s.setScalar p dst (p.ofInt (s.read 8 src))).setPc next)
  | .floatToInt p dst src => some ((s.setReg dst (p.truncate (s.readFloat p src))).setPc next)
  | .convertFloat p dst src =>
    some ((s.setScalar p dst (p.convert (s.readFloat p.other src))).setPc next)
  | .push r => some ((s.push (s.reg r)).setPc next)
  | .pop r =>
    let (x, s') := s.pop
    some ((s'.setReg r x).setPc next)
  | .ret =>
    let (target, s') := s.pop
    some (s'.setPc target)
  | .callReg target => some ((s.push next).setPc (s.reg target))
  | .jump displacement => some (s.setPc (next + displacement.signExtend 64))
  | .jumpIf cond displacement =>
    some (s.setPc (if s.flags.holds cond then next + displacement.signExtend 64 else next))
  | .nop => some (s.setPc next)

end NativeExpr.Machine
