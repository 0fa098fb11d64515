import NativeExpr.Word

/-!
# Binary floating point on bit patterns

Single and double precision operations whose operands and results are bit
patterns held in machine words, a single-precision pattern in the low half.
Arithmetic and rounding are those of `Float32` and `Float`; order, the test for
NaN, truncation to an integer and conversion between the precisions are computed
from the fields of the pattern.

Arithmetic gives one NaN only. Instructions hand on the NaNs of their operands;
what they give is at the end.
-/
namespace NativeExpr

inductive Precision
  | single
  | double
  deriving DecidableEq, Repr

inductive FloatOp
  | add
  | sub
  | mul
  | div
  deriving DecidableEq, Repr

namespace Precision

def width : Precision → Nat
  | single => 32
  | double => 64

def other : Precision → Precision
  | single => double
  | double => single

def fractionBits : Precision → Nat
  | single => 23
  | double => 52

def bias : Precision → Nat
  | single => 127
  | double => 1023

/-- Largest biased exponent; it marks infinities and NaN. -/
def topExponent : Precision → Nat
  | single => 255
  | double => 2047

def toFloat32 (a : Word) : Float32 := Float32.ofBits ⟨a.setWidth 32⟩
def ofFloat32 (x : Float32) : Word := x.toBits.toBitVec.setWidth 64
def toFloat (a : Word) : Float := Float.ofBits ⟨a⟩
def ofFloat (x : Float) : Word := x.toBits.toBitVec

/-- One correctly rounded operation, with one NaN. -/
def apply : Precision → FloatOp → Word → Word → Word
  | single, .add, a, b => ofFloat32 (toFloat32 a + toFloat32 b)
  | single, .sub, a, b => ofFloat32 (toFloat32 a - toFloat32 b)
  | single, .mul, a, b => ofFloat32 (toFloat32 a * toFloat32 b)
  | single, .div, a, b => ofFloat32 (toFloat32 a / toFloat32 b)
  | double, .add, a, b => ofFloat (toFloat a + toFloat b)
  | double, .sub, a, b => ofFloat (toFloat a - toFloat b)
  | double, .mul, a, b => ofFloat (toFloat a * toFloat b)
  | double, .div, a, b => ofFloat (toFloat a / toFloat b)

/-- The nearest value to a signed 64-bit integer. -/
def ofInt (p : Precision) (a : Word) : Word :=
  match p with
  | single => ofFloat32 (Int64.ofBitVec a).toFloat32
  | double => ofFloat (Int64.ofBitVec a).toFloat

def isNegative (p : Precision) (a : Word) : Bool := a.getLsbD (p.width - 1)

def magnitude (p : Precision) (a : Word) : Nat := (a.setWidth (p.width - 1)).toNat

def isNaN (p : Precision) (a : Word) : Bool :=
  p.topExponent <<< p.fractionBits < p.magnitude a

/-- Position of a number in the order of its precision; the two zeros share one. -/
def rank (p : Precision) (a : Word) : Int :=
  if p.isNegative a then -(p.magnitude a : Int) else p.magnitude a

/-- The order of two values, none if one of them is NaN. -/
def compare (p : Precision) (a b : Word) : Option Ordering :=
  if p.isNaN a || p.isNaN b then none else some (Ord.compare (p.rank a) (p.rank b))

/-- The value cut toward zero to an integer, if it is a number. -/
def integerPart (p : Precision) (a : Word) : Int :=
  let exponent := p.magnitude a >>> p.fractionBits
  let fraction := (a.setWidth p.fractionBits).toNat
  let whole :=
    if exponent = 0 then 0
    else (1 <<< p.fractionBits + fraction) <<< exponent >>> (p.bias + p.fractionBits)
  if p.isNegative a then -(whole : Int) else whole

/-- Truncation to a signed 64-bit integer. NaN, infinities and numbers outside
the range all give the smallest integer. -/
def truncate (p : Precision) (a : Word) : Word :=
  let n := p.integerPart a
  if fitsSigned 64 n then BitVec.ofInt 64 n else BitVec.intMin 64

/-! ## Conversion between the precisions -/

open Float.Model in
/-- The nearest single-precision number to a double-precision one. -/
def narrow (a : Word) : Word :=
  let rounded :=
    match UnpackedFloat.unpack .binary64 a with
    | .finite sign mantissa exponent _ => UnpackedFloat.round .binary32 sign mantissa exponent
    | x => x
  let pattern : BitVec 32 := UnpackedFloat.pack .binary32 rounded
  pattern.setWidth 64

/-- The double-precision pattern of a single-precision number, both without sign. A number
without a leading one gets it. -/
def widenMagnitude (m : Nat) : Nat :=
  if m = 0 then 0
  else if m < 1 <<< 23 then m <<< (52 - m.log2) + (m.log2 + 873) <<< 52
  else if m < 255 <<< 23 then m <<< 29 + 896 <<< 52
  else m <<< 29 + 1792 <<< 52

/-- The same number in double precision. -/
def widen (a : Word) : Word :=
  BitVec.ofNat 64 (widenMagnitude (single.magnitude a) +
    if single.isNegative a then 1 <<< 63 else 0)

/-- A NaN of the other precision, made quiet. It keeps its sign and the upper payload. -/
def convertNaN : Precision → Word → Word
  | single, a => a >>> 32 &&& 0x80000000 ||| a >>> 29 &&& 0x3fffff ||| 0x7fc00000
  | double, a => (a &&& 0x80000000) <<< 32 ||| (a &&& 0x3fffff) <<< 29 ||| 0x7ff8000000000000

/-- The nearest value to a value of the other precision. -/
def convert (p : Precision) (a : Word) : Word :=
  if p.other.isNaN a then p.convertNaN a
  else
    match p with
    | single => narrow a
    | double => widen a

/-! ## NaNs -/

/-- The common pattern of every NaN; other patterns are kept. -/
def unifyNaN (p : Precision) (a : Word) : Word :=
  if p.isNaN a then
    match p with
    | single => 0x7fc00000
    | double => 0x7ff8000000000000
  else a

/-- A NaN made quiet. -/
def quiet (p : Precision) (a : Word) : Word :=
  (a.setWidth p.width).setWidth 64 ||| BitVec.twoPow 64 (p.fractionBits - 1)

/-- The NaN of an operation that has no value. -/
def indefinite : Precision → Word
  | single => 0xffc00000
  | double => 0xfff8000000000000

/-- What an instruction gives: the first of its operands that is a NaN, made quiet, else the
result of the operation, and if that is a NaN, the indefinite one. -/
def execute (p : Precision) (op : FloatOp) (a b : Word) : Word :=
  if p.isNaN a then p.quiet a
  else if p.isNaN b then p.quiet b
  else if p.isNaN (p.apply op a b) then p.indefinite
  else p.apply op a b

theorem compare_swap (p : Precision) (a b : Word) :
    p.compare b a = (p.compare a b).map Ordering.swap := by
  unfold compare
  by_cases h : (p.isNaN a || p.isNaN b) = true
  · have h' : (p.isNaN b || p.isNaN a) = true := by rw [Bool.or_comm]; exact h
    simp [h, h']
  · have h' : (p.isNaN b || p.isNaN a) = false := by rw [Bool.or_comm]; simpa using h
    simp only [h', if_neg h]
    rw [@Std.OrientedCmp.eq_swap _ (Ord.compare : Int → Int → Ordering) _ (p.rank b)]
    simp

end Precision

end NativeExpr
