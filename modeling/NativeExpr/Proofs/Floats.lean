import Mathlib.Algebra.Group.Nat.Defs
import NativeExpr.Scalar.Precision

/-!
# Facts about float operations

Addition and multiplication commute, also for operands that are not numbers, and
every result is a pattern of the width of its precision. Which NaN an operand is
decides only which NaN comes out: with NaNs unified, instructions give what the
operations give.
-/
namespace NativeExpr

open Float.Model

variable {spec : Format}

theorem add_finite (s t : UnpackedFloat.Sign) (m k : Nat) (e d : Int) (pos : 0 < m) (pos' : 0 < k) :
    UnpackedFloat.add spec (.finite s m e pos) (.finite t k d pos') =
      .normalize spec
        (s.apply (UnpackedFloat.decreaseExponent m e (min e d)).1 +
          t.apply (UnpackedFloat.decreaseExponent k d (min e d)).1)
        (min e d) .positive := rfl

theorem add_comm_unpacked (a b : UnpackedFloat) :
    UnpackedFloat.add spec a b = UnpackedFloat.add spec b a := by
  cases a with
  | notANumber => cases b <;> rfl
  | infinity s =>
    cases b with
    | infinity t => cases s <;> cases t <;> rfl
    | _ => rfl
  | zero s =>
    cases b with
    | zero t => cases s <;> cases t <;> rfl
    | _ => rfl
  | finite s m e pos =>
    cases b with
    | finite t k d pos' => rw [add_finite, add_finite, Int.min_comm e d, Int.add_comm]
    | _ => rfl

theorem sign_mul_comm (s t : UnpackedFloat.Sign) : s * t = t * s := by
  cases s <;> cases t <;> rfl

theorem mul_comm_unpacked (a b : UnpackedFloat) :
    UnpackedFloat.mul spec a b = UnpackedFloat.mul spec b a := by
  cases a with
  | notANumber => cases b <;> rfl
  | infinity s =>
    cases b with
    | infinity t | finite t => exact congrArg UnpackedFloat.infinity (sign_mul_comm s t)
    | _ => rfl
  | zero s =>
    cases b with
    | zero t | finite t => exact congrArg UnpackedFloat.zero (sign_mul_comm s t)
    | _ => rfl
  | finite s m e =>
    cases b with
    | notANumber => rfl
    | infinity t => exact congrArg UnpackedFloat.infinity (sign_mul_comm s t)
    | zero t => exact congrArg UnpackedFloat.zero (sign_mul_comm s t)
    | finite t k d =>
      show UnpackedFloat.roundWithAccuracy spec (s * t) (m * k) (e + d) .exact = _
      rw [sign_mul_comm, Nat.mul_comm, Int.add_comm]
      rfl

/-! ## Operations on numbers -/

/-- The operation on numbers taken apart. -/
def FloatOp.unpacked : FloatOp → Format → UnpackedFloat → UnpackedFloat → UnpackedFloat
  | .add => UnpackedFloat.add
  | .sub => UnpackedFloat.sub
  | .mul => UnpackedFloat.mul
  | .div => UnpackedFloat.div

theorem unpacked_notANumber (op : FloatOp) (b : UnpackedFloat) :
    op.unpacked spec .notANumber b = .notANumber := by
  cases op <;> rfl

theorem unpacked_notANumber' (op : FloatOp) (a : UnpackedFloat) :
    op.unpacked spec a .notANumber = .notANumber := by
  cases op <;> cases a <;> rfl

theorem toNat_unpackExponent (b : BitVec spec.numBits) :
    (UnpackedFloat.unpackExponent b).toNat =
      b.toNat / 2 ^ spec.mantissaBitsWithoutImplicit % 2 ^ spec.exponentBits := by
  have count : spec.mantissaBitsWithoutImplicit + spec.exponentBits - 1 -
      spec.mantissaBitsWithoutImplicit + 1 = spec.exponentBits := by
    have := spec.he
    omega
  rw [UnpackedFloat.unpackExponent, BitVec.toNat_cast, BitVec.extractLsb_toNat, count,
    Nat.shiftRight_eq_div_pow]

theorem toNat_unpackMantissa (b : BitVec spec.numBits) :
    (UnpackedFloat.unpackMantissa b).toNat = b.toNat % 2 ^ spec.mantissaBitsWithoutImplicit := by
  have count : spec.mantissaBitsWithoutImplicit - 1 - 0 + 1 = spec.mantissaBitsWithoutImplicit := by
    have := spec.hm
    omega
  rw [UnpackedFloat.unpackMantissa, BitVec.toNat_cast, BitVec.extractLsb_toNat, count,
    Nat.shiftRight_zero]

namespace Precision

def format : Precision → Format
  | single => .binary32
  | double => .binary64

/-- The number that arithmetic takes a pattern for. -/
def value (p : Precision) (a : Word) : UnpackedFloat :=
  .unpack p.format (UnpackedFloat.pack p.format (.unpack p.format (a.setWidth p.format.numBits)))

def pattern (p : Precision) (x : UnpackedFloat) : Word :=
  BitVec.setWidth 64 (UnpackedFloat.pack p.format x)

theorem apply_eq (p : Precision) (op : FloatOp) (a b : Word) :
    p.apply op a b = p.pattern (op.unpacked p.format (p.value a) (p.value b)) := by
  cases p <;> cases op <;> rfl

theorem apply_comm (p : Precision) {op : FloatOp} (h : op = .add ∨ op = .mul) (a b : Word) :
    p.apply op a b = p.apply op b a := by
  rw [apply_eq, apply_eq]
  rcases h with rfl | rfl
  · exact congrArg p.pattern (add_comm_unpacked _ _)
  · exact congrArg p.pattern (mul_comm_unpacked _ _)

/-! ## NaNs -/

variable {p : Precision} {op : FloatOp} {a a' b b' : Word}

theorem isNaN_iff : p.isNaN a = true ↔
    UnpackedFloat.unpackExponent (a.setWidth p.format.numBits) = -1#_ ∧
      UnpackedFloat.unpackMantissa (a.setWidth p.format.numBits) ≠ 0#_ := by
  rw [← BitVec.toNat_inj, ne_eq, ← BitVec.toNat_inj, toNat_unpackExponent, toNat_unpackMantissa]
  cases p <;>
    simp [isNaN, magnitude, width, topExponent, fractionBits, format, Format.numBits] <;> omega

theorem value_of_isNaN (h : p.isNaN a = true) : p.value a = .notANumber := by
  obtain ⟨exponent, mantissa⟩ := isNaN_iff.1 h
  have unpacked : UnpackedFloat.unpack p.format (a.setWidth p.format.numBits) = .notANumber := by
    unfold UnpackedFloat.unpack
    rw [if_pos exponent, if_neg mantissa]
  rw [value, unpacked]
  cases p <;> rfl

/-- Arithmetic gives one NaN. -/
theorem unifyNaN_pattern (x : UnpackedFloat) : p.unifyNaN (p.pattern x) = p.pattern x := by
  unfold unifyNaN
  split
  · next nan =>
    have same : ((p.pattern x).setWidth p.format.numBits) = UnpackedFloat.pack p.format x :=
      setWidth_setWidth_cancel _ (by cases p <;> decide)
    obtain ⟨exponent, mantissa⟩ := isNaN_iff.1 nan
    rw [same] at exponent mantissa
    rw [pattern, UnpackedFloat.valid_pack.eq_packedNaN exponent mantissa]
    cases p <;> decide
  · rfl

theorem isNaN_unifyNaN : p.isNaN (p.unifyNaN a) = p.isNaN a := by
  unfold unifyNaN
  split
  · next nan =>
    rw [nan]
    cases p <;> decide
  · rfl

theorem unifyNaN_of_isNaN (h : p.isNaN a = true) (h' : p.isNaN b = true) :
    p.unifyNaN a = p.unifyNaN b := by
  unfold unifyNaN
  rw [if_pos h, if_pos h']

theorem unifyNaN_unifyNaN : p.unifyNaN (p.unifyNaN a) = p.unifyNaN a := by
  cases nan : p.isNaN a with
  | true => exact unifyNaN_of_isNaN (isNaN_unifyNaN.trans nan) nan
  | false =>
    have same : p.unifyNaN a = a := by
      unfold unifyNaN
      rw [nan, if_neg nofun]
    rw [same, same]

theorem eq_or_isNaN (h : p.unifyNaN a = p.unifyNaN b) :
    a = b ∨ p.isNaN a = true ∧ p.isNaN b = true := by
  have alike : p.isNaN a = p.isNaN b := by rw [← isNaN_unifyNaN, h, isNaN_unifyNaN]
  cases nan : p.isNaN a with
  | true => exact .inr ⟨rfl, alike ▸ nan⟩
  | false =>
    have number := alike.symm.trans nan
    unfold unifyNaN at h
    rw [nan, number] at h
    exact .inl h

theorem apply_congr (first : p.unifyNaN a = p.unifyNaN a') (second : p.unifyNaN b = p.unifyNaN b') :
    p.apply op a b = p.apply op a' b' := by
  have value {x y : Word} (h : p.unifyNaN x = p.unifyNaN y) : p.value x = p.value y := by
    rcases eq_or_isNaN h with rfl | ⟨nan, nan'⟩
    · rfl
    · rw [value_of_isNaN nan, value_of_isNaN nan']
  rw [apply_eq, apply_eq, value first, value second]

theorem unifyNaN_apply : p.unifyNaN (p.apply op a b) = p.apply op a b := by
  rw [apply_eq, unifyNaN_pattern]

theorem apply_of_isNaN (h : p.isNaN a = true ∨ p.isNaN b = true) :
    p.apply op a b = p.pattern .notANumber := by
  rw [apply_eq]
  rcases h with h | h
  · rw [value_of_isNaN h, unpacked_notANumber]
  · rw [value_of_isNaN h, unpacked_notANumber']

theorem magnitude_or (a b : Word) : p.magnitude (a ||| b) = p.magnitude a ||| p.magnitude b := by
  rw [magnitude, BitVec.setWidth_or, BitVec.toNat_or]
  rfl

theorem isNaN_or_left (h : p.isNaN a = true) (b : Word) : p.isNaN (a ||| b) = true := by
  rw [isNaN, decide_eq_true_iff] at h ⊢
  rw [magnitude_or]
  exact Nat.lt_of_lt_of_le h Nat.left_le_or

theorem isNaN_or_right (h : p.isNaN b = true) (a : Word) : p.isNaN (a ||| b) = true := by
  rw [BitVec.or_comm]
  exact isNaN_or_left h a

theorem isNaN_quiet (h : p.isNaN a = true) : p.isNaN (p.quiet a) = true := by
  refine isNaN_or_left ?_ _
  have same : p.magnitude ((a.setWidth p.width).setWidth 64) = p.magnitude a := by
    cases p <;> simp [magnitude, width]
  rwa [isNaN, same]

/-- Instructions give the NaN of one of their operands where arithmetic gives any. -/
theorem unifyNaN_execute : p.unifyNaN (p.execute op a b) = p.apply op a b := by
  have nan : p.isNaN (p.pattern .notANumber) = true := by cases p <;> decide
  unfold execute
  split
  · next first =>
    rw [apply_of_isNaN (.inl first), ← unifyNaN_pattern]
    exact unifyNaN_of_isNaN (isNaN_quiet first) nan
  split
  · next second =>
    rw [apply_of_isNaN (.inr second), ← unifyNaN_pattern]
    exact unifyNaN_of_isNaN (isNaN_quiet second) nan
  split
  · next invalid =>
    rw [← unifyNaN_apply]
    exact unifyNaN_of_isNaN (by cases p <;> decide) invalid
  · exact unifyNaN_apply

theorem isNaN_convertNaN : p.isNaN (p.convertNaN a) = true := by
  cases p <;> exact isNaN_or_right (by decide) _

theorem isNaN_convert (h : p.other.isNaN a = true) : p.isNaN (p.convert a) = true := by
  unfold convert
  rw [if_pos h]
  exact isNaN_convertNaN

theorem convert_congr (h : p.other.unifyNaN a = p.other.unifyNaN b) :
    p.unifyNaN (p.convert a) = p.unifyNaN (p.convert b) := by
  rcases eq_or_isNaN h with rfl | ⟨nan, nan'⟩
  · rfl
  · unfold convert
    rw [if_pos nan, if_pos nan']
    exact unifyNaN_of_isNaN isNaN_convertNaN isNaN_convertNaN

theorem compare_congr (first : p.unifyNaN a = p.unifyNaN a')
    (second : p.unifyNaN b = p.unifyNaN b') : p.compare a b = p.compare a' b' := by
  unfold compare
  rcases eq_or_isNaN first with rfl | ⟨nan, nan'⟩
  · rcases eq_or_isNaN second with rfl | ⟨nan, nan'⟩
    · rfl
    · simp only [nan, nan', Bool.or_true, if_true]
  · simp only [nan, nan', Bool.true_or, if_true]

/-! ## Width -/

/-- Whether a word is a pattern of the precision. -/
def Fits (p : Precision) (w : Word) : Prop := (w.setWidth p.width).setWidth 64 = w

theorem fits_double (w : Word) : Fits .double w := by simp [Fits, width]

theorem fits_setWidth (x : BitVec 32) : Fits .single (x.setWidth 64) :=
  congrArg (BitVec.setWidth 64) (setWidth_setWidth_cancel _ (by decide))

theorem fits_ofInt (p : Precision) (a : Word) : p.Fits (p.ofInt a) := by
  cases p with
  | double => exact fits_double _
  | single => exact fits_setWidth _

theorem fits_apply (p : Precision) (op : FloatOp) (a b : Word) : p.Fits (p.apply op a b) := by
  cases p with
  | double => exact fits_double _
  | single => cases op <;> exact fits_setWidth _

theorem Fits.or {x y : Word} (hx : p.Fits x) (hy : p.Fits y) : p.Fits (x ||| y) := by
  rw [Fits, BitVec.setWidth_or, BitVec.setWidth_or, hx, hy]

theorem Fits.and {x : Word} (hx : p.Fits x) (y : Word) : p.Fits (y &&& x) := by
  cases p with
  | double => exact fits_double _
  | single =>
    rw [← hx]
    refine BitVec.eq_of_getLsbD_eq fun i hi => ?_
    by_cases low : i < 32 <;> simp [width, low, hi]

theorem fits_quiet : p.Fits (p.quiet a) := by
  cases p with
  | double => exact fits_double _
  | single => exact .or (fits_setWidth _) (by rfl)

theorem fits_execute (p : Precision) (op : FloatOp) (a b : Word) : p.Fits (p.execute op a b) := by
  unfold execute
  split
  · exact fits_quiet
  split
  · exact fits_quiet
  split
  · cases p <;> rfl
  · exact fits_apply p op a b

theorem fits_convert (p : Precision) (a : Word) : p.Fits (p.convert a) := by
  cases p with
  | double => exact fits_double _
  | single =>
    unfold convert
    split
    · exact .or (.or (.and (by rfl) _) (.and (by rfl) _)) (by rfl)
    · exact fits_setWidth _

end Precision

end NativeExpr
