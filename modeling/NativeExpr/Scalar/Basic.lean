import NativeExpr.Scalar.Precision
import NativeExpr.Register.Basic

/-!
# Scalar types and values

The twelve result types of an expression and their values. A value is kept as a
64-bit word in canonical form: signed integers are sign-extended, unsigned
integers, truth values and single-precision patterns are zero-extended.
-/
namespace NativeExpr

inductive ScalarType
  | bool
  | i8
  | i16
  | i32
  | i64
  | u8
  | u16
  | u32
  | u64
  | f32
  | f64
  | ptr
  deriving DecidableEq, Repr, Inhabited

namespace ScalarType

def all : List ScalarType := [bool, i8, i16, i32, i64, u8, u16, u32, u64, f32, f64, ptr]

def name : ScalarType → String
  | bool => "bool"
  | i8 => "i8"
  | i16 => "i16"
  | i32 => "i32"
  | i64 => "i64"
  | u8 => "u8"
  | u16 => "u16"
  | u32 => "u32"
  | u64 => "u64"
  | f32 => "f32"
  | f64 => "f64"
  | ptr => "ptr"

/-- Size in bytes when stored in memory. -/
def size : ScalarType → Nat
  | bool | i8 | u8 => 1
  | i16 | u16 => 2
  | i32 | u32 | f32 => 4
  | i64 | u64 | f64 | ptr => 8

def width (ty : ScalarType) : Nat := 8 * ty.size

def isFloat : ScalarType → Bool
  | f32 | f64 => true
  | _ => false

/-- Fixed-width integers; truth values and addresses are not among them. -/
def isInteger : ScalarType → Bool
  | i8 | i16 | i32 | i64 | u8 | u16 | u32 | u64 => true
  | _ => false

def isSigned : ScalarType → Bool
  | i8 | i16 | i32 | i64 => true
  | _ => false

def precision? : ScalarType → Option Precision
  | f32 => some .single
  | f64 => some .double
  | _ => none

def regClass (ty : ScalarType) : RegClass := if ty.isFloat then .float else .general

/-- The canonical word for a raw 64-bit pattern. -/
def canonical (ty : ScalarType) (raw : Word) : Word :=
  match ty with
  | bool => if raw = 0 then 0 else 1
  | i8 | i16 | i32 | i64 => (raw.setWidth ty.width).signExtend 64
  | u8 | u16 | u32 | u64 | f32 | f64 | ptr => (raw.setWidth ty.width).setWidth 64

/-- Integers and truth values convert into each other and into floats. -/
def isIntLike (ty : ScalarType) : Bool := ty.isInteger || ty == bool

def castAllowed (source target : ScalarType) : Bool :=
  source == target
    || source.isIntLike && (target.isIntLike || target.isFloat)
    || source.isFloat && (target.isInteger || target.isFloat)
    || source == ptr && (target == i64 || target == u64)
    || (source == i64 || source == u64) && target == ptr

/-- Conversions between unsigned 64-bit integers and floats have no instruction. -/
def lacksConversion (source target : ScalarType) : Bool :=
  source == u64 && target.isFloat || source.isFloat && target == u64

@[simp] theorem width_f32 : width f32 = 32 := rfl

theorem isFloat_eq_isSome (ty : ScalarType) : ty.isFloat = ty.precision?.isSome := by
  cases ty <;> rfl

theorem isFloat_of_precision {ty : ScalarType} {p : Precision} (h : ty.precision? = some p) :
    ty.isFloat = true := by
  rw [isFloat_eq_isSome, h]
  rfl

theorem precision?_eq_none {ty : ScalarType} : ty.precision? = none ↔ ty.isFloat = false := by
  rw [isFloat_eq_isSome, Option.isSome_eq_false_iff, Option.isNone_iff_eq_none]

theorem isFloat_of_isInteger {ty : ScalarType} (h : ty.isInteger = true) : ty.isFloat = false := by
  cases ty <;> first | rfl | cases h

theorem canonical_canonical (ty : ScalarType) (raw : Word) :
    ty.canonical (ty.canonical raw) = ty.canonical raw := by
  cases ty with
  | bool =>
    simp only [canonical]
    split <;> simp
  | i8 | i16 | i32 | i64 =>
    exact congrArg (BitVec.signExtend 64) (setWidth_signExtend_cancel _ (by decide))
  | u8 | u16 | u32 | u64 | f32 | f64 | ptr =>
    exact congrArg (BitVec.setWidth 64) (setWidth_setWidth_cancel _ (by decide))

end ScalarType

/-- A typed scalar. -/
structure Value where
  ty : ScalarType
  bits : Word
  deriving DecidableEq, Repr, Inhabited

namespace Value

def ofRaw (ty : ScalarType) (raw : Word) : Value := ⟨ty, ty.canonical raw⟩

def ofBool (b : Bool) : Value := ⟨.bool, if b then 1 else 0⟩

/-- The value at a float type of a double-precision pattern. -/
def ofDouble (ty : ScalarType) (pattern : Word) : Value :=
  if ty = .f32 then ⟨.f32, Precision.convert .single pattern⟩ else ⟨.f64, pattern⟩

def isTrue (v : Value) : Bool := v.bits != 0

/-- The double-precision pattern: widened for single precision, else the bits as they are. -/
def double (v : Value) : Word :=
  if v.ty = .f32 then Precision.convert .double v.bits else v.bits

end Value

end NativeExpr
