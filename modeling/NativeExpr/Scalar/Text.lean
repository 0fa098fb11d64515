import NativeExpr.Decimal.Shortest
import NativeExpr.Scalar.Basic

/-!
# The text of a value

Integers are written in decimal, signed ones with their sign; a float is written
by its shortest decimal, in single precision that of the widened number.
-/
namespace NativeExpr.Value

def text (v : Value) : String :=
  if v.ty.isFloat then Decimal.render v.double
  else if v.ty.isSigned then toString v.bits.toInt
  else toString v.bits.toNat

def describe (v : Value) : String := v.text ++ ":" ++ v.ty.name

end NativeExpr.Value
