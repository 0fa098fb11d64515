import Mathlib.Algebra.Group.Int.Defs
import NativeExpr.Graph.Operation
import NativeExpr.Proofs.Floats

/-!
# Single precision in double precision

Every single-precision number is a double-precision one. The order of numbers and the integers
that they are cut to are the same in both, so that evaluation, which compares and truncates in
double precision, agrees with instructions that do so in the precision of their operands.
-/
namespace NativeExpr

theorem fitsSigned_word {i : Int} : fitsSigned 64 i = true ↔ -2 ^ 63 ≤ i ∧ i < 2 ^ 63 := by
  rw [fitsSigned, beq_iff_eq]
  constructor
  · intro same
    rw [← same]
    exact ⟨BitVec.le_toInt _, BitVec.toInt_lt⟩
  · rintro ⟨low, high⟩
    rw [BitVec.toInt_ofInt]
    exact Int.bmod_eq_of_le (by omega) (by omega)

namespace Precision

variable {p : Precision} {a b : Word} {m n : Nat}

/-! ## Widening -/

/-- A number without a leading one, moved to where it has one. -/
theorem leading_bounds (pos : m ≠ 0) (small : m < 2 ^ 23) :
    2 ^ 52 ≤ m <<< (52 - m.log2) ∧ m <<< (52 - m.log2) < 2 ^ 53 ∧ m.log2 < 23 := by
  have log : m.log2 < 23 := (Nat.log2_lt pos).2 small
  have low := Nat.log2_self_le pos
  have high : m < 2 ^ (m.log2 + 1) := Nat.lt_log2_self
  rw [Nat.shiftLeft_eq]
  refine ⟨?_, ?_, log⟩
  · calc 2 ^ 52 = 2 ^ m.log2 * 2 ^ (52 - m.log2) := by rw [← Nat.pow_add]; congr 1; omega
      _ ≤ m * 2 ^ (52 - m.log2) := Nat.mul_le_mul_right _ low
  · calc m * 2 ^ (52 - m.log2) < 2 ^ (m.log2 + 1) * 2 ^ (52 - m.log2) :=
          Nat.mul_lt_mul_of_pos_right high (Nat.two_pow_pos _)
      _ = 2 ^ 53 := by rw [← Nat.pow_add]; congr 1; omega

theorem widenMagnitude_small (pos : m ≠ 0) (small : m < 2 ^ 23) :
    widenMagnitude m = m <<< (52 - m.log2) + (m.log2 + 873) * 2 ^ 52 := by
  have small : m < 1 <<< 23 := small
  rw [widenMagnitude, if_neg pos, if_pos small, Nat.shiftLeft_eq _ 52]

theorem widenMagnitude_normal (large : 2 ^ 23 ≤ m) (number : m < 255 * 2 ^ 23) :
    widenMagnitude m = m * 2 ^ 29 + 896 * 2 ^ 52 := by
  have large : ¬m < 1 <<< 23 := Nat.not_lt_of_le large
  have number : m < 255 <<< 23 := number
  rw [widenMagnitude, if_neg (by omega), if_neg large, if_pos number, Nat.shiftLeft_eq,
    Nat.shiftLeft_eq]

theorem widenMagnitude_infinity : widenMagnitude (255 * 2 ^ 23) = 2047 * 2 ^ 52 := rfl

theorem widenMagnitude_small_lt (small : m < 2 ^ 23) : widenMagnitude m < 897 * 2 ^ 52 := by
  by_cases zero : m = 0
  · rw [zero]
    decide
  · obtain ⟨-, high, log⟩ := leading_bounds zero small
    rw [widenMagnitude_small zero small]
    omega

theorem widenMagnitude_lt (less : m < n) (number : n ≤ 255 * 2 ^ 23) :
    widenMagnitude m < widenMagnitude n := by
  by_cases large : 2 ^ 23 ≤ n
  · have wide : n < 255 * 2 ^ 23 ∧ widenMagnitude n = n * 2 ^ 29 + 896 * 2 ^ 52 ∨
        widenMagnitude n = 2047 * 2 ^ 52 := by
      rcases Nat.lt_or_eq_of_le number with normal | rfl
      · exact .inl ⟨normal, widenMagnitude_normal large normal⟩
      · exact .inr widenMagnitude_infinity
    by_cases small : m < 2 ^ 23
    · have := widenMagnitude_small_lt small
      omega
    · rw [widenMagnitude_normal (by omega) (by omega)]
      omega
  have positive : n ≠ 0 := by omega
  obtain ⟨low', high', log'⟩ := leading_bounds positive (by omega)
  rw [widenMagnitude_small positive (by omega)]
  by_cases zero : m = 0
  · rw [zero]
    exact Nat.lt_of_lt_of_le (by decide) (Nat.le_trans low' (Nat.le_add_right ..))
  obtain ⟨low, high, log⟩ := leading_bounds zero (by omega)
  rw [widenMagnitude_small zero (by omega)]
  have mono : m.log2 ≤ n.log2 :=
    (Nat.le_log2 positive).2 (Nat.le_trans (Nat.log2_self_le zero) (Nat.le_of_lt less))
  rcases Nat.lt_or_eq_of_le mono with lower | same
  · omega
  · rw [same, Nat.shiftLeft_eq, Nat.shiftLeft_eq]
    exact Nat.add_lt_add_right (Nat.mul_lt_mul_of_pos_right less (Nat.two_pow_pos _)) _

theorem widenMagnitude_le (number : m ≤ 255 * 2 ^ 23) : widenMagnitude m ≤ 2047 * 2 ^ 52 := by
  rcases Nat.lt_or_eq_of_le number with less | rfl
  · exact Nat.le_of_lt (widenMagnitude_lt less (Nat.le_refl _))
  · exact Nat.le_refl _

theorem isNaN_single : single.isNaN a = true ↔ 255 * 2 ^ 23 < single.magnitude a :=
  decide_eq_true_iff

theorem isNaN_double : double.isNaN a = true ↔ 2047 * 2 ^ 52 < double.magnitude a :=
  decide_eq_true_iff

theorem magnitude_le (number : single.isNaN a = false) : single.magnitude a ≤ 255 * 2 ^ 23 :=
  Nat.le_of_not_lt fun h => by
    rw [isNaN_single.2 h] at number
    cases number

theorem toNat_widen (number : single.isNaN a = false) : (widen a).toNat =
    widenMagnitude (single.magnitude a) + if single.isNegative a then 2 ^ 63 else 0 := by
  have bound := widenMagnitude_le (magnitude_le number)
  rw [widen, BitVec.toNat_ofNat]
  refine Nat.mod_eq_of_lt ?_
  show widenMagnitude _ + (if _ then 9223372036854775808 else 0) < _
  split <;> omega

theorem magnitude_widen (number : single.isNaN a = false) :
    double.magnitude (widen a) = widenMagnitude (single.magnitude a) := by
  have bound := widenMagnitude_le (magnitude_le number)
  rw [magnitude, BitVec.toNat_setWidth, toNat_widen number]
  show _ % 2 ^ 63 = _
  split <;> omega

theorem isNegative_widen (number : single.isNaN a = false) :
    double.isNegative (widen a) = single.isNegative a := by
  have bound := widenMagnitude_le (magnitude_le number)
  show (widen a).getLsbD 63 = _
  rw [BitVec.getLsbD, toNat_widen number, Nat.testBit_eq_decide_div_mod_eq]
  cases single.isNegative a <;> simp <;> omega

theorem convert_single (number : single.isNaN a = false) : double.convert a = widen a := by
  refine if_neg fun nan => ?_
  rw [show single.isNaN a = true from nan] at number
  cases number

theorem isNaN_widen (number : single.isNaN a = false) : double.isNaN (widen a) = false := by
  have bound := widenMagnitude_le (magnitude_le number)
  rw [← Bool.not_eq_true, isNaN_double, magnitude_widen number]
  exact Nat.not_lt_of_le bound

theorem widenMagnitude_zero : widenMagnitude 0 = 0 := rfl

/-- What becomes of the position of a number. -/
def widenRank (x : Int) : Int :=
  if x < 0 then -(widenMagnitude x.natAbs : Int) else widenMagnitude x.natAbs

theorem widenRank_lt {x y : Int} (hx : x.natAbs ≤ 255 * 2 ^ 23) (hy : y.natAbs ≤ 255 * 2 ^ 23)
    (less : x < y) : widenRank x < widenRank y := by
  unfold widenRank
  split <;> split
  · have := widenMagnitude_lt (m := y.natAbs) (n := x.natAbs) (by omega) hx
    omega
  · have := widenMagnitude_lt (m := 0) (n := x.natAbs) (by omega) hx
    omega
  · omega
  · have := widenMagnitude_lt (m := x.natAbs) (n := y.natAbs) (by omega) hy
    omega

theorem compare_widenRank {x y : Int} (hx : x.natAbs ≤ 255 * 2 ^ 23)
    (hy : y.natAbs ≤ 255 * 2 ^ 23) : Ord.compare (widenRank x) (widenRank y) = Ord.compare x y := by
  rcases Int.lt_trichotomy x y with less | rfl | greater
  · rw [Int.compare_eq_lt.2 less, Int.compare_eq_lt.2 (widenRank_lt hx hy less)]
  · rw [Int.compare_eq_eq.2 rfl, Int.compare_eq_eq.2 rfl]
  · rw [Int.compare_eq_gt.2 greater, Int.compare_eq_gt.2 (widenRank_lt hy hx greater)]

theorem rank_widen (number : single.isNaN a = false) :
    double.rank (widen a) = widenRank (single.rank a) := by
  have zero := widenMagnitude_zero
  unfold rank widenRank
  rw [isNegative_widen number, magnitude_widen number]
  split
  · rw [Int.natAbs_neg, Int.natAbs_natCast]
    split
    · rfl
    · rw [show single.magnitude a = 0 by omega, zero]
      rfl
  · rw [Int.natAbs_natCast, if_neg (by omega)]

theorem natAbs_rank (number : single.isNaN a = false) :
    (single.rank a).natAbs ≤ 255 * 2 ^ 23 := by
  have := magnitude_le number
  unfold rank
  split <;> omega

theorem compare_convert (a b : Word) :
    double.compare (double.convert a) (double.convert b) = single.compare a b := by
  unfold compare
  cases first : single.isNaN a with
  | true => rw [isNaN_convert (p := .double) first]; rfl
  | false =>
    cases second : single.isNaN b with
    | true => rw [isNaN_convert (p := .double) second, Bool.or_true, Bool.or_true]; rfl
    | false =>
      rw [convert_single first, convert_single second, isNaN_widen first, isNaN_widen second,
        rank_widen first, rank_widen second,
        compare_widenRank (natAbs_rank first) (natAbs_rank second)]

/-! ## Truncation -/

def whole (p : Precision) (m : Nat) : Nat :=
  if m / 2 ^ p.fractionBits = 0 then 0
  else (2 ^ p.fractionBits + m % 2 ^ p.fractionBits) * 2 ^ (m / 2 ^ p.fractionBits) /
    2 ^ (p.bias + p.fractionBits)

theorem integerPart_eq (p : Precision) (a : Word) : p.integerPart a =
    if p.isNegative a then -(p.whole (p.magnitude a) : Int) else p.whole (p.magnitude a) := by
  have fraction : (a.setWidth p.fractionBits).toNat = p.magnitude a % 2 ^ p.fractionBits := by
    rw [magnitude, BitVec.toNat_setWidth, BitVec.toNat_setWidth]
    exact (Nat.mod_mod_of_dvd _ (Nat.pow_dvd_pow 2 (by cases p <;> decide))).symm
  simp only [integerPart, whole, fraction, Nat.shiftRight_eq_div_pow, Nat.shiftLeft_eq, Nat.one_mul]

theorem le_whole {e k : Nat} (exponent : e * 2 ^ p.fractionBits ≤ m) (pos : 0 < e)
    (power : p.bias + k ≤ e) : 2 ^ k ≤ p.whole m := by
  have low : e ≤ m / 2 ^ p.fractionBits :=
    (Nat.le_div_iff_mul_le (Nat.two_pow_pos _)).2 exponent
  rw [whole, if_neg (by omega), Nat.le_div_iff_mul_le (Nat.two_pow_pos _)]
  calc 2 ^ k * 2 ^ (p.bias + p.fractionBits)
      = 2 ^ p.fractionBits * 2 ^ (p.bias + k) := by
        rw [← Nat.pow_add, ← Nat.pow_add]; congr 1; omega
    _ ≤ 2 ^ p.fractionBits * 2 ^ (m / 2 ^ p.fractionBits) :=
        Nat.mul_le_mul_left _ (Nat.pow_le_pow_right (by decide) (by omega))
    _ ≤ _ := Nat.mul_le_mul_right _ (Nat.le_add_right ..)

theorem whole_lt {e k : Nat} (exponent : m < e * 2 ^ p.fractionBits)
    (power : e ≤ p.bias + k) : p.whole m < 2 ^ k := by
  have high : m / 2 ^ p.fractionBits < e := Nat.div_lt_of_lt_mul (Nat.mul_comm _ _ ▸ exponent)
  unfold whole
  split
  · exact Nat.two_pow_pos _
  rw [Nat.div_lt_iff_lt_mul (Nat.two_pow_pos _)]
  have fraction := Nat.mod_lt m (Nat.two_pow_pos p.fractionBits)
  calc (2 ^ p.fractionBits + m % 2 ^ p.fractionBits) * 2 ^ (m / 2 ^ p.fractionBits)
      < 2 ^ (p.fractionBits + 1) * 2 ^ (m / 2 ^ p.fractionBits) :=
        Nat.mul_lt_mul_of_pos_right (by rw [Nat.pow_succ]; omega) (Nat.two_pow_pos _)
    _ = 2 ^ (p.fractionBits + 1 + m / 2 ^ p.fractionBits) := (Nat.pow_add ..).symm
    _ ≤ 2 ^ (k + (p.bias + p.fractionBits)) := Nat.pow_le_pow_right (by decide) (by omega)
    _ = _ := Nat.pow_add ..

/-- A number that is too large gives the smallest integer, whatever its sign. -/
theorem truncate_of_le (h : 2 ^ 63 ≤ p.whole (p.magnitude a)) :
    p.truncate a = BitVec.intMin 64 := by
  unfold truncate
  dsimp only
  split
  · next fits =>
    rw [fitsSigned_word, integerPart_eq] at fits
    rw [integerPart_eq]
    split at fits
    · have exact_ : (p.whole (p.magnitude a) : Int) = 2 ^ 63 := by omega
      rw [if_pos ‹_›, exact_]
      rfl
    · omega
  · rfl

theorem truncate_of_infinite (h : p.topExponent * 2 ^ p.fractionBits ≤ p.magnitude a) :
    p.truncate a = BitVec.intMin 64 :=
  truncate_of_le (le_whole h (by cases p <;> decide) (by cases p <;> decide))

theorem truncate_of_isNaN (h : p.isNaN a = true) : p.truncate a = BitVec.intMin 64 := by
  rw [isNaN, decide_eq_true_iff, Nat.shiftLeft_eq] at h
  exact truncate_of_infinite (Nat.le_of_lt h)

theorem truncate_congr (h : p.unifyNaN a = p.unifyNaN b) : p.truncate a = p.truncate b := by
  rcases eq_or_isNaN h with rfl | ⟨nan, nan'⟩
  · rfl
  · rw [truncate_of_isNaN nan, truncate_of_isNaN nan']

theorem truncate_of_lt (h : p.whole (p.magnitude a) < 2 ^ 63) :
    p.truncate a = BitVec.ofInt 64 (p.integerPart a) := by
  refine if_pos (fitsSigned_word.2 ?_)
  rw [integerPart_eq]
  split <;> omega

theorem scaled_div {a b d : Nat} (h : a + b = d) (x e c : Nat) :
    x * 2 ^ a * 2 ^ (e + b) / 2 ^ (c + d) = x * 2 ^ e / 2 ^ c := by
  rw [Nat.pow_add 2 e, Nat.pow_add 2 c, Nat.mul_mul_mul_comm, ← Nat.pow_add, h,
    Nat.mul_div_mul_right _ _ (Nat.two_pow_pos d)]

theorem whole_widenMagnitude (number : m < 255 * 2 ^ 23) :
    double.whole (widenMagnitude m) = single.whole m := by
  by_cases small : m < 2 ^ 23
  · have below : double.whole (widenMagnitude m) < 2 ^ 0 :=
      whole_lt (widenMagnitude_small_lt small) (by decide)
    have zero : m / 2 ^ 23 = 0 := by omega
    rw [show single.whole m = 0 from if_pos zero]
    omega
  · have positive : ¬m / 2 ^ 23 = 0 := by omega
    have exponent : widenMagnitude m / 2 ^ 52 = m / 2 ^ 23 + 896 := by
      rw [widenMagnitude_normal (by omega) number]
      omega
    have fraction : 2 ^ 52 + widenMagnitude m % 2 ^ 52 = (2 ^ 23 + m % 2 ^ 23) * 2 ^ 29 := by
      rw [widenMagnitude_normal (by omega) number]
      omega
    have biases : double.bias + double.fractionBits = single.bias + single.fractionBits + 925 := rfl
    unfold whole
    rw [biases, show double.fractionBits = 52 from rfl, fraction, exponent]
    rw [if_neg (Nat.succ_ne_zero _)]
    refine (scaled_div (by rfl) _ _ _).trans (if_neg positive).symm

theorem integerPart_widen (number : single.isNaN a = false)
    (finite : single.magnitude a < 255 * 2 ^ 23) :
    double.integerPart (widen a) = single.integerPart a := by
  rw [integerPart_eq, integerPart_eq, isNegative_widen number, magnitude_widen number,
    whole_widenMagnitude finite]

theorem truncate_convert (a : Word) : double.truncate (double.convert a) = single.truncate a := by
  cases h : single.isNaN a with
  | true => rw [truncate_of_isNaN (isNaN_convert (p := .double) h), truncate_of_isNaN h]
  | false =>
    rw [convert_single h]
    rcases Nat.lt_or_eq_of_le (magnitude_le h) with finite | infinite
    · rw [truncate, integerPart_widen h finite]
      rfl
    · have wide : double.magnitude (widen a) = 2047 * 2 ^ 52 := by
        rw [magnitude_widen h, infinite, widenMagnitude_infinity]
      rw [truncate_of_infinite (p := .double) (Nat.le_of_eq wide.symm),
        truncate_of_infinite (p := .single) (Nat.le_of_eq infinite.symm)]

theorem any_isGE (first : p.isNaN a = false) (second : p.isNaN b = false) :
    (p.compare a b).any Ordering.isGE = decide (p.rank b ≤ p.rank a) := by
  rw [compare, first, second, if_neg (by decide), Option.any_some, Bool.eq_iff_iff,
    decide_eq_true_iff, Ordering.isGE_iff_ne_lt, Int.compare_eq_lt, Int.not_lt]

theorem any_isLT (first : p.isNaN a = false) (second : p.isNaN b = false) :
    (p.compare a b).any Ordering.isLT = decide (p.rank a < p.rank b) := by
  rw [compare, first, second, if_neg (by decide), Option.any_some, Bool.eq_iff_iff,
    decide_eq_true_iff, Ordering.isLT_iff_eq_lt, Int.compare_eq_lt]

end Precision

/-- Evaluation cuts a double to the integer that the instruction gives. -/
theorem Value.truncateToInt64_eq (x : Word) :
    truncateToInt64 x = Precision.double.truncate x := by
  have large (h : 1086 * 2 ^ 52 ≤ Precision.double.magnitude x) :
      Precision.double.truncate x = BitVec.intMin 64 :=
    Precision.truncate_of_le (Precision.le_whole h (by decide) (by decide))
  cases nan : Precision.double.isNaN x with
  | true =>
    unfold truncateToInt64
    rw [Precision.truncate_of_isNaN nan, nan]
    rfl
  | false =>
    have upper : Precision.double.rank 0x43e0000000000000 = 1086 * 2 ^ 52 := by decide
    have lower : Precision.double.rank 0xc3e0000000000000 = -(1086 * 2 ^ 52) := by decide
    have cut : truncateToInt64 x = if 1086 * 2 ^ 52 ≤ Precision.double.rank x ∨
        Precision.double.rank x < -(1086 * 2 ^ 52) then BitVec.intMin 64
        else BitVec.ofInt 64 (Precision.double.integerPart x) := by
      rw [truncateToInt64, nan, Precision.any_isGE nan (by decide),
        Precision.any_isLT nan (by decide), upper, lower]
      simp only [Bool.false_or, Bool.or_eq_true, decide_eq_true_iff]
    rw [cut]
    split
    · next beyond =>
      refine (large ?_).symm
      unfold Precision.rank at beyond
      split at beyond <;> omega
    · next within =>
      rw [not_or, Int.not_le, Int.not_lt] at within
      unfold Precision.rank at within
      by_cases least : Precision.double.magnitude x < 1086 * 2 ^ 52
      · exact (Precision.truncate_of_lt (Precision.whole_lt least (by decide))).symm
      · have exact_ : Precision.double.magnitude x = 1086 * 2 ^ 52 ∧
            Precision.double.isNegative x = true := by
          split at within
          · exact ⟨by omega, ‹_›⟩
          · omega
        have whole : Precision.double.whole (1086 * 2 ^ 52) = 2 ^ 63 := by decide +kernel
        rw [large (by omega), Precision.integerPart_eq, if_pos exact_.2, exact_.1, whole]
        rfl

namespace Value

variable {a b : Value} {p : Precision}

theorem truncateToInt64_toDouble (h : a.ty.precision? = some p) :
    truncateToInt64 a.toDouble = p.truncate a.bits := by
  rw [truncateToInt64_eq, toDouble, h]
  cases p with
  | single => exact Precision.truncate_convert _
  | double => rfl

/-- Evaluation compares floats as the instruction of their precision does. -/
theorem order_of_precision (h : a.ty.precision? = some p) (same : b.ty = a.ty) :
    a.order b = p.compare a.bits b.bits := by
  rw [order, toDouble, toDouble, same, h]
  cases p with
  | single => exact Precision.compare_convert _ _
  | double => rfl

end Value

end NativeExpr
