import NativeExpr.Graph.Operation
import NativeExpr.Lowering.Arithmetic
import NativeExpr.Proofs.Effects
import NativeExpr.Proofs.Schedule

/-!
# Machine arithmetic and the meaning of operations

A division of the widened dividend fails exactly where the operation has no result,
and a condition on the flags of a comparison decides its predicate.
-/
namespace NativeExpr

open X64 Machine

variable {x y : Word}

/-! ## Division -/

/-- What stands in `rdx` before a division. -/
def highWord (signed : Bool) (x : Word) : Word := if signed then x.sshiftRight 63 else 0

theorem toInt_sshiftRight_append (x : Word) : (x.sshiftRight 63 ++ x).toInt = x.toInt := by
  have widened : x.sshiftRight 63 ++ x = x.signExtend 128 := by
    apply BitVec.eq_of_getLsbD_eq
    intro i hi
    rw [BitVec.getLsbD_append, BitVec.getLsbD_signExtend]
    by_cases low : i < 64
    · simp [low, hi]
    · rw [if_neg low, if_neg low, BitVec.getLsbD_sshiftRight]
      have inside : ¬ 64 ≤ i - 64 := by omega
      have sign : 63 + (i - 64) < 64 ↔ i = 64 := by omega
      by_cases first : i = 64
      · simp [first, BitVec.msb_eq_getLsbD_last]
      · simp [sign, first, inside, hi]
  rw [widened, BitVec.toInt_signExtend_of_le (by decide)]

theorem divideSigned_eq (x y : Word) :
    divideSigned (x.sshiftRight 63) x y =
      if y = 0 ∨ x = BitVec.intMin 64 ∧ y = -1 then none else some (x.sdiv y, x.srem y) := by
  simp only [divideSigned, toInt_sshiftRight_append]
  by_cases zero : y = 0
  · rw [if_pos (.inl zero), if_pos (.inl zero)]
  · by_cases overflow : x = BitVec.intMin 64 ∧ y = -1
    · rw [if_pos (show y = 0 ∨ x = BitVec.intMin 64 ∧ y = -1 from .inr overflow), overflow.1,
        overflow.2]
      rfl
    · have regular : x ≠ BitVec.intMin 64 ∨ y ≠ -1#64 := by
        by_cases hx : x = BitVec.intMin 64
        · exact .inr fun hy => overflow ⟨hx, hy⟩
        · exact .inl hx
      have quotient := BitVec.toInt_sdiv_of_ne_or_ne x y regular
      have fits : ¬(y = 0 ∨ (!fitsSigned 64 (x.toInt.tdiv y.toInt)) = true) := by
        rw [← quotient, fitsSigned_toInt]
        exact not_or.2 ⟨zero, Bool.false_ne_true⟩
      rw [if_neg fits, if_neg (not_or.2 ⟨zero, overflow⟩), ← quotient, ← BitVec.toInt_srem,
        BitVec.ofInt_toInt, BitVec.ofInt_toInt]

theorem divideUnsigned_eq (x y : Word) :
    divideUnsigned 0 x y = if y = 0 then none else some (x.udiv y, x.umod y) := by
  have low : ((0 : Word) ++ x).toNat = x.toNat := by
    rw [BitVec.toNat_append]
    simp
  simp only [divideUnsigned, low]
  by_cases zero : y = 0
  · rw [if_pos (.inl zero), if_pos zero]
  · have quotient : (x.udiv y).toNat = x.toNat / y.toNat := BitVec.toNat_udiv
    have remainder : (x.umod y).toNat = x.toNat % y.toNat := BitVec.toNat_umod
    have fits : ¬(y = 0 ∨ (!fitsUnsigned 64 (x.toNat / y.toNat)) = true) := by
      rw [← quotient, fitsUnsigned_toNat]
      exact not_or.2 ⟨zero, Bool.false_ne_true⟩
    rw [if_neg fits, if_neg zero, ← quotient, ← remainder, BitVec.ofNat_toNat, BitVec.ofNat_toNat,
      BitVec.setWidth_eq, BitVec.setWidth_eq]

/-- The division of the machine is that of the operation, quotient or remainder. -/
theorem divide_eq (ty : ScalarType) (x y : Word) :
    match divide ty.isSigned (highWord ty.isSigned x) x y with
    | some (q, r) => ArithOp.div.evalInt ty x y = .ok q ∧ ArithOp.rem.evalInt ty x y = .ok r
    | none => (∃ e, ArithOp.div.evalInt ty x y = .error e) ∧
        ∃ e, ArithOp.rem.evalInt ty x y = .error e := by
  cases signed : ty.isSigned with
  | true =>
    rw [divide, highWord, if_pos rfl, if_pos rfl, divideSigned_eq]
    simp only [ArithOp.evalInt, signed, if_true]
    by_cases zero : y = 0
    · rw [if_pos (.inl zero), if_pos zero, if_pos zero]
      exact ⟨⟨_, rfl⟩, _, rfl⟩
    · rw [if_neg zero, if_neg zero]
      by_cases overflow : x = BitVec.intMin 64 ∧ y = -1
      · rw [if_pos (.inr overflow), if_pos overflow, if_pos overflow]
        exact ⟨⟨_, rfl⟩, _, rfl⟩
      · rw [if_neg (not_or.2 ⟨zero, overflow⟩), if_neg overflow, if_neg overflow]
        exact ⟨rfl, rfl⟩
  | false =>
    rw [divide, highWord, if_neg Bool.false_ne_true, if_neg Bool.false_ne_true, divideUnsigned_eq]
    simp only [ArithOp.evalInt, signed, Bool.false_eq_true, if_false]
    by_cases zero : y = 0
    · rw [if_pos zero, if_pos zero, if_pos zero]
      exact ⟨⟨_, rfl⟩, _, rfl⟩
    · rw [if_neg zero, if_neg zero, if_neg zero]
      exact ⟨rfl, rfl⟩

/-! ## Comparisons -/

theorem slt_eq_sign_ne_overflow (x y : Word) : ((x - y).msb != x.ssubOverflow y) = x.slt y := by
  have hx := BitVec.toInt_lt (x := x)
  have hx' := BitVec.le_toInt (x := x)
  have hy := BitVec.toInt_lt (x := y)
  have hy' := BitVec.le_toInt (x := y)
  rw [BitVec.slt_eq_decide, BitVec.msb_eq_toInt, BitVec.toInt_sub, BitVec.ssubOverflow, Int.bmod]
  generalize x.toInt = a at *
  generalize y.toInt = b at *
  by_cases less : a < b
  · have : (a - b) % (2 ^ 64 : Nat) = a - b + 2 ^ 64 := by omega
    simp only [this, less]
    grind
  · have : (a - b) % (2 ^ 64 : Nat) = a - b := by omega
    simp only [this, less]
    grind

/-- After an integer comparison the condition of a predicate tells whether it holds. -/
theorem holds_ofSub (pred : Predicate) (ty : ScalarType) (general : ty.precision? = none)
    (x y : Word) (ty' : ScalarType) :
    (Flags.ofSub x y).holds (Lowering.integerCondition pred ty.isSigned) =
      pred.holds (Value.order ⟨ty, x⟩ ⟨ty', y⟩) := by
  rw [Value.order_of_general general]
  dsimp only
  cases signed : ty.isSigned with
  | true =>
    have less : ((x - y).msb != x.ssubOverflow y) = decide (x.toInt < y.toInt) :=
      slt_eq_sign_ne_overflow x y
    have equal : (x == y) = decide (x.toInt = y.toInt) := by
      rw [Bool.eq_iff_iff, beq_iff_eq, decide_eq_true_iff, BitVec.toInt_inj]
    have same : ((x - y).msb == x.ssubOverflow y) = !decide (x.toInt < y.toInt) := by
      rw [← less]
      cases (x - y).msb <;> cases x.ssubOverflow y <;> rfl
    rw [if_pos rfl]
    rcases Int.lt_trichotomy x.toInt y.toInt with h | h | h
    · have order : Ord.compare x.toInt y.toInt = .lt := Int.compare_eq_lt.2 h
      have ne : ¬ x.toInt = y.toInt := by omega
      cases pred <;> simp [Lowering.integerCondition, Flags.holds, Flags.ofSub, Predicate.holds,
        order, less, equal, same, h, ne]
    · cases pred <;> simp [Lowering.integerCondition, Flags.holds, Flags.ofSub, Predicate.holds,
        less, equal, same, h]
    · have order : Ord.compare x.toInt y.toInt = .gt := Int.compare_eq_gt.2 h
      have nlt : ¬ x.toInt < y.toInt := by omega
      have ne : ¬ x.toInt = y.toInt := by omega
      cases pred <;> simp [Lowering.integerCondition, Flags.holds, Flags.ofSub, Predicate.holds,
        order, less, equal, same, nlt, ne]
  | false =>
    have equal : (x == y) = decide (x.toNat = y.toNat) := by
      rw [Bool.eq_iff_iff, beq_iff_eq, decide_eq_true_iff, BitVec.toNat_inj]
    rw [if_neg Bool.false_ne_true]
    rcases Nat.lt_trichotomy x.toNat y.toNat with h | h | h
    · have order : Ord.compare x.toNat y.toNat = .lt := Nat.compare_eq_lt.2 h
      have ne : ¬ x.toNat = y.toNat := by omega
      cases pred <;> simp [Lowering.integerCondition, Flags.holds, Flags.ofSub, Predicate.holds,
        order, equal, h, ne]
    · cases pred <;> simp [Lowering.integerCondition, Flags.holds, Flags.ofSub, Predicate.holds,
        equal, h]
    · have order : Ord.compare x.toNat y.toNat = .gt := Nat.compare_eq_gt.2 h
      have nlt : ¬ x.toNat < y.toNat := by omega
      have ne : ¬ x.toNat = y.toNat := by omega
      cases pred <;> simp [Lowering.integerCondition, Flags.holds, Flags.ofSub, Predicate.holds,
        order, equal, nlt, ne]

theorem holds_ofOrder (order : Option Ordering) :
    (Flags.ofOrder order).holds .a = Predicate.gt.holds order ∧
      (Flags.ofOrder order).holds .ae = Predicate.ge.holds order ∧
      ((Flags.ofOrder order).holds .e && (Flags.ofOrder order).holds .np) =
        Predicate.eq.holds order ∧
      ((Flags.ofOrder order).holds .ne || (Flags.ofOrder order).holds .p) =
        Predicate.ne.holds order := by
  cases order with
  | none => exact ⟨rfl, rfl, rfl, rfl⟩
  | some order => cases order <;> exact ⟨rfl, rfl, rfl, rfl⟩

theorem holds_swap (order : Option Ordering) :
    Predicate.gt.holds (order.map Ordering.swap) = Predicate.lt.holds order ∧
      Predicate.ge.holds (order.map Ordering.swap) = Predicate.le.holds order := by
  cases order with
  | none => exact ⟨rfl, rfl⟩
  | some order => cases order <;> exact ⟨rfl, rfl⟩

/-! ## Shifts -/

/-- A shift counts modulo 64, so the low byte of the count is enough. -/
theorem shiftWord_eq (left : Bool) (ty : ScalarType) (x y : Word) {count : Nat}
    (hcount : count % 64 = y.toNat % 64) :
    shiftWord (Lowering.shiftOp left ty) x count =
      (if left then LogicOp.shl else LogicOp.shr).word ty.isSigned x y := by
  cases left with
  | true => simp only [Lowering.shiftOp, if_true, shiftWord, LogicOp.word, hcount]
  | false =>
    cases signed : ty.isSigned <;>
      simp only [Lowering.shiftOp, Bool.false_eq_true, if_true, if_false, signed, shiftWord,
        LogicOp.word, hcount]

theorem low_byte_mod (y : Word) : (y.setWidth 8).toNat % 64 = y.toNat % 64 := by
  rw [BitVec.toNat_setWidth]
  omega

end NativeExpr
