import NativeExpr.Error

/-!
# Meaning of the operations

Integer operations work on whole canonical words and bring the result back into
canonical form; division and conversion say which operands they refuse. Float
arithmetic is that of the precision of the type; comparisons and conversions into
integers go by double precision.
-/
namespace NativeExpr

/-- Integer arithmetic on canonical words, before truncation to the type. -/
def ArithOp.evalInt (op : ArithOp) (ty : ScalarType) (x y : Word) : Except CompileError Word :=
  match op with
  | .add => .ok (x + y)
  | .sub => .ok (x - y)
  | .mul => .ok (x * y)
  | .div =>
    if y = 0 then .error (.unsupported (.divisionByZero .div))
    else if ty.isSigned then
      if x = BitVec.intMin 64 ∧ y = -1 then .error (.unsupported (.quotientOverflow .div))
      else .ok (x.sdiv y)
    else .ok (x.udiv y)
  | .rem =>
    if y = 0 then .error (.unsupported (.divisionByZero .rem))
    else if ty.isSigned then
      if x = BitVec.intMin 64 ∧ y = -1 then .error (.unsupported (.quotientOverflow .rem))
      else .ok (x.srem y)
    else .ok (x.umod y)

namespace Value

def arith (op : ArithOp) (ty : ScalarType) (a b : Value) : Except CompileError Value :=
  match ty.precision? with
  | some p =>
    match op.float? with
    | some f => .ok ⟨ty, p.apply f a.bits b.bits⟩
    | none => .error (.unsupported .floatRemainder)
  | none => (op.evalInt ty a.bits b.bits).map (ofRaw ty)

/-- Bitwise operations and shifts; a shift counts modulo 64. -/
def logic (op : LogicOp) (ty : ScalarType) (a b : Value) : Value :=
  let count := b.bits.toNat % 64
  ofRaw ty <|
    match op with
    | .and => a.bits &&& b.bits
    | .or => a.bits ||| b.bits
    | .xor => a.bits ^^^ b.bits
    | .shl => a.bits <<< count
    | .shr => if ty.isSigned then a.bits.sshiftRight count else a.bits >>> count

def toDouble (v : Value) : Word :=
  match v.ty.precision? with
  | some .single => Precision.double.convert v.bits
  | _ => v.bits

/-- The order of two values of one type, none if one of them is NaN. Floats are compared in
double precision. -/
def order (a b : Value) : Option Ordering :=
  match a.ty.precision? with
  | some _ => Precision.double.compare a.toDouble b.toDouble
  | none =>
    if a.ty.isSigned then some (Ord.compare a.bits.toInt b.bits.toInt)
    else some (Ord.compare a.bits.toNat b.bits.toNat)

theorem order_of_general {a b : Value} (h : a.ty.precision? = none) : a.order b =
    if a.ty.isSigned then some (Ord.compare a.bits.toInt b.bits.toInt)
    else some (Ord.compare a.bits.toNat b.bits.toNat) := by
  rw [order, h]

def compare (pred : Predicate) (a b : Value) : Value := ofBool (pred.holds (a.order b))

/-- A double cut toward zero to a signed 64-bit integer, the smallest one if the double is not a
number, `2 ^ 63` or more, or less than `-2 ^ 63`. -/
def truncateToInt64 (x : Word) : Word :=
  let limit : Word := 0x43e0000000000000
  let negated : Word := 0xc3e0000000000000
  if Precision.double.isNaN x || (Precision.double.compare x limit).any Ordering.isGE ||
      (Precision.double.compare x negated).any Ordering.isLT then BitVec.intMin 64
  else BitVec.ofInt 64 (Precision.double.integerPart x)

def cast (v : Value) (target : ScalarType) : Except CompileError Value :=
  if v.ty = target then .ok v
  else if v.ty.lacksConversion target then
    .error (.unsupported (.conversion v.ty target))
  else if target = .bool then .ok (ofBool (v.bits != 0))
  else
    .ok <|
      match v.ty.precision?, target.precision? with
      | some _, some q => ⟨target, q.convert v.bits⟩
      | none, some q => ⟨target, q.ofInt v.bits⟩
      | some _, none => ofRaw target (truncateToInt64 v.toDouble)
      | none, none => ofRaw target v.bits

def load (m : Memory) (ty : ScalarType) (address : Word) : Value :=
  ofRaw ty (m.load address ty.size)

end Value

def elementAddress (base index : Word) (ty : ScalarType) : Word :=
  base + index * BitVec.ofNat 64 ty.size

def fieldAddress (base : Word) (offset : Int) : Word := base + BitVec.ofInt 64 offset

end NativeExpr
