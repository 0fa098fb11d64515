import NativeExpr.Proofs.Schedule

/-!
# Words of narrow types

A register holds a value of a narrow type with the bits above its width filled up: with the
sign for signed types and with zeros for others. Bitwise operations and right shifts of such
words give such words. What sets truth values apart is that their byte may be any.
-/
namespace NativeExpr

namespace ScalarType

variable {ty : ScalarType} {w x y z : Word}

/-- Whether a word is what a register holds of a value of the type. -/
def Settled (ty : ScalarType) (w : Word) : Prop := ty.settle w = w

instance : Decidable (ty.Settled w) := inferInstanceAs (Decidable (_ = _))

theorem width_pos (ty : ScalarType) : 0 < ty.width := by cases ty <;> decide

theorem width_le (ty : ScalarType) : ty.width ≤ 64 := by cases ty <;> decide

theorem settle_signed (signed : ty.isSigned = true) (raw : Word) :
    ty.settle raw = (raw.setWidth ty.width).signExtend 64 := by
  cases ty <;> first | rfl | cases signed

theorem settle_unsigned (unsigned : ty.isSigned = false) (raw : Word) :
    ty.settle raw = (raw.setWidth ty.width).setWidth 64 := by
  cases ty <;> first | rfl | cases unsigned

theorem getLsbD_settle (ty : ScalarType) (raw : Word) {i : Nat} (hi : i < 64) :
    (ty.settle raw).getLsbD i =
      if i < ty.width then raw.getLsbD i else ty.isSigned && raw.getLsbD (ty.width - 1) := by
  have pos := ty.width_pos
  cases signed : ty.isSigned with
  | true =>
    rw [settle_signed signed, BitVec.getLsbD_signExtend, BitVec.msb_eq_getLsbD_last,
      BitVec.getLsbD_setWidth, BitVec.getLsbD_setWidth]
    simp only [hi, decide_true, Bool.true_and]
    split
    · next low => rw [decide_eq_true low, Bool.true_and]
    · rw [decide_eq_true (by omega), Bool.true_and]
  | false =>
    rw [settle_unsigned signed, BitVec.getLsbD_setWidth, BitVec.getLsbD_setWidth]
    split
    · next low => simp [hi, low]
    · next high => simp [high]

/-- A word is settled if its bits above the width are all alike. -/
theorem settled_iff_bits : ty.Settled w ↔
    ∀ i < 64, ty.width ≤ i → w.getLsbD i = (ty.isSigned && w.getLsbD (ty.width - 1)) := by
  constructor
  · intro h i hi high
    have bit : (ty.settle w).getLsbD i = w.getLsbD i := congrArg (fun x : Word => x.getLsbD i) h
    rw [getLsbD_settle ty w hi, if_neg (Nat.not_lt.2 high)] at bit
    exact bit.symm
  · intro h
    refine BitVec.eq_of_getLsbD_eq fun i hi => ?_
    rw [getLsbD_settle ty w hi]
    split
    · rfl
    · next high => exact (h i hi (Nat.not_lt.1 high)).symm

theorem settled_settle (ty : ScalarType) (raw : Word) : ty.Settled (ty.settle raw) := by
  have pos := ty.width_pos
  have le := ty.width_le
  refine settled_iff_bits.2 fun i hi high => ?_
  rw [getLsbD_settle ty raw hi, getLsbD_settle ty raw (by omega), if_neg (Nat.not_lt.2 high),
    if_pos (by omega)]

theorem settle_of_ne (ne : ty ≠ .bool) (raw : Word) : ty.settle raw = ty.canonical raw :=
  if_neg ne

/-- What is read of a register that holds a value is what is settled of it. -/
theorem settle_eq_view (settled : ty.isFloat = false → ty.Settled (ty.view w)) :
    ty.settle w = ty.view w := by
  cases float : ty.isFloat with
  | true => cases ty <;> first | rfl | exact BitVec.setWidth_eq _ | cases float
  | false =>
    have whole : ty.view w = w := if_neg fun same => by
      rw [same] at float
      cases float
    rw [whole] at settled ⊢
    exact settled float

theorem settled_zero (ty : ScalarType) : ty.Settled 0 := by cases ty <;> decide

theorem settled_of_canonical (h : ty.canonical w = w) : ty.Settled w := by
  by_cases bool : ty = .bool
  · subst bool
    rw [← h]
    unfold canonical
    dsimp only
    split <;> decide
  · rw [Settled, settle_of_ne bool, h]

theorem canonical_bool_iff : canonical .bool w = w ↔ w = 0 ∨ w = 1 := by
  unfold canonical
  dsimp only
  split
  · next zero => simp [zero]
  · next nonzero =>
    rw [or_iff_right nonzero]
    exact eq_comm

/-- What is computed bit by bit, with nothing from zeros, is settled if the operands are. -/
theorem Settled.bitwise (hx : ty.Settled x) (hy : ty.Settled y) (f : Bool → Bool → Bool)
    (zero : f false false = false) (bits : ∀ i, z.getLsbD i = f (x.getLsbD i) (y.getLsbD i)) :
    ty.Settled z := by
  refine settled_iff_bits.2 fun i hi high => ?_
  rw [bits, bits, settled_iff_bits.1 hx i hi high, settled_iff_bits.1 hy i hi high]
  cases ty.isSigned with
  | true => rfl
  | false => exact zero

theorem Settled.sshiftRight (hx : ty.Settled x) (signed : ty.isSigned = true) (n : Nat) :
    ty.Settled (x.sshiftRight n) := by
  have pos := ty.width_pos
  have le := ty.width_le
  have above := settled_iff_bits.1 hx
  simp only [signed, Bool.true_and] at above
  -- every bit of the result from the sign on is the sign of the operand
  have bit (i : Nat) (hi : i < 64) (high : ty.width - 1 ≤ i) :
      (x.sshiftRight n).getLsbD i = x.getLsbD (ty.width - 1) := by
    have all (j : Nat) (hj : j < 64) (high : ty.width - 1 ≤ j) :
        x.getLsbD j = x.getLsbD (ty.width - 1) := by
      by_cases same : j = ty.width - 1
      · rw [same]
      · exact above j hj (by omega)
    rw [BitVec.getLsbD_sshiftRight, BitVec.msb_eq_getLsbD_last, decide_eq_false (by omega),
      Bool.not_false, Bool.true_and]
    split
    · next inside => exact all _ inside (by omega)
    · exact all _ (by decide) (by omega)
  refine settled_iff_bits.2 fun i hi high => ?_
  rw [bit i hi (by omega), bit _ (by omega) (Nat.le_refl _), signed, Bool.true_and]

theorem Settled.ushiftRight (hx : ty.Settled x) (unsigned : ty.isSigned = false) (n : Nat) :
    ty.Settled (x >>> n) := by
  refine settled_iff_bits.2 fun i hi high => ?_
  rw [BitVec.getLsbD_ushiftRight, unsigned, Bool.false_and]
  by_cases inside : n + i < 64
  · rw [settled_iff_bits.1 hx _ inside (by omega), unsigned, Bool.false_and]
  · exact BitVec.getLsbD_of_ge _ _ (Nat.not_lt.1 inside)

end ScalarType

/-- Logical operations keep words settled, left shifts apart. -/
theorem LogicOp.settled_word {op : LogicOp} {ty : ScalarType} {x y : Word} (ne : op ≠ .shl)
    (hx : ty.Settled x) (hy : ty.Settled y) : ty.Settled (op.word ty.isSigned x y) := by
  cases op with
  | and => exact hx.bitwise hy (· && ·) rfl fun i => BitVec.getLsbD_and
  | or => exact hx.bitwise hy (· || ·) rfl fun i => BitVec.getLsbD_or
  | xor => exact hx.bitwise hy (· ^^ ·) rfl fun i => BitVec.getLsbD_xor
  | shl => exact absurd rfl ne
  | shr =>
    cases signed : ty.isSigned with
    | true => exact hx.sshiftRight signed _
    | false => exact hx.ushiftRight signed _

end NativeExpr
